import LibPrelude.Idmef.PathStore

/-! # The keys of paths in use

An element below the depth of a path has a key just if its index is the mark for keys, the
key is not released, and elements that are not in use have none. Every run keeps this whose
calls do not take an index or the last element from under a key, and do not read a number as
the mark.
-/

namespace LibPrelude

/-- An element has a key just if its index is the mark, and its key is not released. -/
structure SlotAgrees (keys : Memory UInt8) (slot : PathSlot) : Prop where
  agree : slot.indexKey.isSome ↔ slot.index = indexKey
  live : ∀ key, slot.indexKey = some key → (keys.bytesAt key).isSome

/-- The keys of a path and its indices agree, and no key is behind the elements in use. -/
structure PathObject.KeysAgree (keys : Memory UInt8) (path : PathObject) : Prop where
  agrees : ∀ i < path.depth, SlotAgrees keys (path.elem i)
  beyond : ∀ i, path.depth ≤ i → (path.elem i).indexKey = none

namespace PathStore

/-- The keys of every path and its indices agree. -/
def KeysAgree (s : PathStore) : Prop := ∀ p path, s.path p = some path → path.KeysAgree s.keys

inductive Op where
  | parse (rootclass : IdmefClassId) (buffer : List UInt8)
  | setIndex (p depth : ℕ) (index : ℤ)
  | undefineIndex (p depth : ℕ)
  | makeChild (p : ℕ) (childName : List UInt8) (index : ℤ)
  | makeParent (p : ℕ)
  | clone (p : ℕ)
  | ref (p : ℕ)

def call (s : PathStore) : Op → PathRet
  | .parse rootclass buffer => s.newFromRootFast rootclass buffer
  | .setIndex p depth index => s.setIndex p depth index
  | .undefineIndex p depth => s.undefineIndex p depth
  | .makeChild p childName index => s.makeChild p childName index
  | .makeParent p => s.makeParent p
  | .clone p => s.clone p
  | .ref p => s.ref p

def step (s : PathStore) (op : Op) : Option PathStore := (s.call op).map Prod.snd

def run (s : PathStore) (ops : List Op) : Option PathStore := ops.foldlM step s

def pathParts : ℕ → List UInt8 → List (List UInt8)
  | 0, text => [(splitAtByte 46 text).1]
  | n + 1, text =>
    (splitAtByte 46 text).1 ::
      match (splitAtByte 46 text).2 with
      | some rest => pathParts n rest
      | none => []

/-- The index of a part is a number that an `int` holds as the mark for keys. -/
def keyNumeral (part : List UInt8) : Bool :=
  match parsePart part with
  | .ok (_, index, none) => index = indexKey
  | _ => false

/-- The key between quotes in a part. -/
def partKey (part : List UInt8) : Option (List UInt8) :=
  match parsePart part with
  | .ok (_, _, key) => key
  | .error _ => none

/-- The keys between quotes in a name. -/
def quotedKeys (n : ℕ) (text : List UInt8) : List (List UInt8) :=
  (pathParts n text).filterMap partKey

def afterCopies (keys : Memory UInt8) (texts : List (List UInt8)) : Memory UInt8 :=
  texts.foldl (fun keys text => (strdup keys text).1) keys

/-- Memory for copies of some texts is there. -/
def grantsCopies : Memory UInt8 → List (List UInt8) → Bool
  | _, [] => true
  | keys, text :: texts =>
    (strdup keys text).2.isSome && grantsCopies (strdup keys text).1 texts

/-- A name is read, and there is memory for the path and its entry in the cache. -/
def MakesPath (s : PathStore) (rootclass : IdmefClassId) (buffer : List UInt8) : Prop :=
  s.cached rootclass buffer = none ∧ buffer.length + 1 < maxNameLen ∧
    (∃ es, parseElements (maxDepth - 1) rootclass buffer = .ok es) ∧
    (s.keys.request sizeofIdmefPath).2 = true ∧
    ((afterCopies (s.keys.request sizeofIdmefPath).1 (quotedKeys (maxDepth - 1) buffer)).request
      sizeofHashElem).2 = true

/-- Nobody but the caller and the cache refers to a path. -/
def Modifiable (s : PathStore) (path : PathObject) : Prop :=
  path.refcount ≤ 1 ∨ path.refcount = 2 ∧ (s.cached path.topClass path.name).isSome

/-- A new name has no number that is the mark for keys and its keys can be copied, and no index
changes and no last element is given up that has the mark. -/
def Harmless (s : PathStore) : Op → Prop
  | .parse rootclass buffer => s.MakesPath rootclass buffer →
      (∀ part ∈ pathParts (maxDepth - 1) buffer, keyNumeral part = false) ∧
      grantsCopies (s.keys.request sizeofIdmefPath).1 (quotedKeys (maxDepth - 1) buffer)
  | .setIndex p depth index => ∀ path, s.path p = some path → s.Modifiable path →
      depth < path.depth → index ≠ indexForbidden → index ≠ indexKey →
      (path.elem depth).index ≠ indexKey
  | .undefineIndex p depth => ∀ path, s.path p = some path → s.Modifiable path →
      depth < path.depth → (path.elem depth).index ≠ indexKey
  | .makeParent p => ∀ path, s.path p = some path → s.Modifiable path →
      0 < path.depth → (path.elem (path.depth - 1)).index ≠ indexKey
  | .makeChild _ _ _ | .clone _ | .ref _ => True

def HarmlessRun (s : PathStore) : List Op → Prop
  | [] => True
  | op :: ops => s.Harmless op ∧ ∀ s', s.step op = some s' → HarmlessRun s' ops

/-- No block is released and none is forgotten. -/
structure Keeps (keys keys' : Memory UInt8) : Prop where
  length : keys.blocks.length ≤ keys'.blocks.length
  live : ∀ key, (keys.bytesAt key).isSome → (keys'.bytesAt key).isSome

variable {s s' : PathStore} {keys keys' keys'' : Memory UInt8} {path path' : PathObject}
  {text part : List UInt8} {p i n key : ℕ}

theorem Keeps.refl (keys : Memory UInt8) : Keeps keys keys := ⟨le_rfl, fun _ h => h⟩

theorem Keeps.trans (h : Keeps keys keys') (h' : Keeps keys' keys'') : Keeps keys keys'' :=
  ⟨h.length.trans h'.length, fun key hk => h'.live key (h.live key hk)⟩

theorem keeps_request (keys : Memory UInt8) (n : ℕ) : Keeps keys (keys.request n).1 :=
  ⟨le_rfl, fun _ h => h⟩

theorem strdup_cases (keys : Memory UInt8) (text : List UInt8) :
    ((strdup keys text).2 = none ∧ (strdup keys text).1 = (keys.request (text.length + 1)).1) ∨
      ((strdup keys text).2 = some keys.blocks.length ∧
        (strdup keys text).1 = (keys.request (text.length + 1)).1.addBlock (text ++ [0])) := by
  unfold strdup
  rcases hr : keys.request (text.length + 1) with ⟨keys', _ | _⟩
  · exact .inl ⟨rfl, rfl⟩
  · obtain rfl : (keys.request (text.length + 1)).1 = keys' := by rw [hr]
    exact .inr ⟨rfl, rfl⟩

theorem keeps_strdup (keys : Memory UInt8) (text : List UInt8) :
    Keeps keys (strdup keys text).1 := by
  rcases strdup_cases keys text with ⟨-, h⟩ | ⟨-, h⟩ <;> rw [h]
  · exact keeps_request keys _
  · refine ⟨by simp [Memory.addBlock], fun key hkey => ?_⟩
    rw [Memory.bytesAt_addBlock, Function.update_apply]
    split_ifs
    · rfl
    · exact hkey

theorem strdup_some (h : (strdup keys text).2 = some key) :
    key = keys.blocks.length ∧ ((strdup keys text).1.bytesAt key).isSome := by
  rcases strdup_cases keys text with ⟨h', -⟩ | ⟨h', hkeys⟩ <;> rw [h'] at h
  · cases h
  · obtain rfl : keys.blocks.length = key := Option.some.inj h
    refine ⟨rfl, ?_⟩
    rw [hkeys, Memory.bytesAt_addBlock]
    simp

theorem keeps_afterCopies (keys : Memory UInt8) (texts : List (List UInt8)) :
    Keeps keys (afterCopies keys texts) := by
  induction texts generalizing keys with
  | nil => exact Keeps.refl keys
  | cons text texts ih => exact (keeps_strdup keys text).trans (ih _)

end PathStore

theorem SlotAgrees.keeps {keys keys' : Memory UInt8} {slot : PathSlot}
    (h : SlotAgrees keys slot) (hkeys : PathStore.Keeps keys keys') : SlotAgrees keys' slot :=
  { h with live := fun key hk => hkeys.live key (h.live key hk) }

theorem SlotAgrees.no_key {keys : Memory UInt8} {slot : PathSlot} (h : SlotAgrees keys slot)
    (hindex : slot.index ≠ indexKey) : slot.indexKey = none :=
  Option.not_isSome_iff_eq_none.mp fun hkey => hindex (h.agree.mp hkey)

namespace PathObject.KeysAgree

variable {keys keys' : Memory UInt8} {path path' : PathObject}

theorem keeps (h : path.KeysAgree keys) (hkeys : PathStore.Keeps keys keys') :
    path.KeysAgree keys' :=
  { h with agrees := fun i hi => (h.agrees i hi).keeps hkeys }

theorem congr (h : path.KeysAgree keys) (hdepth : path'.depth = path.depth)
    (helem : path'.elem = path.elem) : path'.KeysAgree keys := by
  constructor
  case agrees => rw [hdepth, helem]; exact h.agrees
  case beyond => rw [hdepth, helem]; exact h.beyond

end PathObject.KeysAgree

namespace PathStore

variable {s s' : PathStore} {keys keys' : Memory UInt8} {path path' : PathObject} {p q n : ℕ}

theorem path_setPath (h : (s.setPath p path).path q = some path') :
    path' = path ∨ s.path q = some path' := by
  rw [PathStore.path, setPath] at h
  by_cases hq : q = p
  · subst hq
    by_cases hlt : q < s.paths.length
    · rw [List.getElem?_set_self hlt] at h
      exact .inl (Option.some.inj h).symm
    · rw [List.getElem?_eq_none (by simpa using hlt)] at h
      cases h
  · rw [List.getElem?_set_ne (Ne.symm hq)] at h
    exact .inr h

theorem KeysAgree.setPath (hs : s.KeysAgree) (hpath : path.KeysAgree s.keys) (p : ℕ) :
    (s.setPath p path).KeysAgree := by
  intro q path' h
  rcases path_setPath h with rfl | h
  · exact hpath
  · exact hs q path' h

theorem KeysAgree.append (hs : s.KeysAgree) (hkeys : Keeps s.keys keys)
    {o : Option PathObject} (ho : ∀ path ∈ o, path.KeysAgree keys) (cache : List ℕ) :
    KeysAgree ⟨keys, s.paths ++ [o], cache⟩ := by
  intro q path' h
  rw [PathStore.path] at h
  rcases Nat.lt_trichotomy q s.paths.length with hq | rfl | hq
  · rw [List.getElem?_append_left hq] at h
    exact (hs q path' h).keeps hkeys
  · rw [List.getElem?_concat_length] at h
    exact ho path' h
  · rw [List.getElem?_eq_none (by simp; omega)] at h
    cases h

theorem KeysAgree.memory (hs : s.KeysAgree) (hkeys : Keeps s.keys keys) :
    KeysAgree { s with keys } := fun q path h => (hs q path h).keeps hkeys

section Parse

variable {elem elem' : ℕ → PathSlot} {cls : IdmefClassId} {depth d : ℕ} {e : IdmefPathElement}
  {c : Child} {name tok : List UInt8} {index : ℤ} {key : Option (List UInt8)}

theorem parsePart_key (h : parsePart part = .ok (name, index, key)) (hkey : key.isSome) :
    index = indexKey := by
  unfold parsePart at h
  split at h
  · cases h
    cases hkey
  · split at h
    · cases h
    · rename_i rest _ tok _ _
      rcases htok : parseIndex tok with err | ⟨i, k⟩ <;> rw [htok] at h <;> cases h
      unfold parseIndex at htok
      split_ifs at htok
      · cases htok; cases hkey
      · cases htok; cases hkey
      · cases htok; rfl
      · cases htok; cases hkey
      · split at htok <;> cases htok
        cases hkey

/-- An element has the mark if its part has a key, and only then when the part has no number that
is the mark. -/
theorem parseElement_key (hpart : parsePart part = .ok (name, index, key))
    (h : parseElement cls part = .ok (e, c)) (hnum : keyNumeral part = false) :
    key.isSome ↔ e.index = indexKey := by
  have hindex : key.isSome ↔ index = indexKey := by
    refine ⟨parsePart_key hpart, fun hi => ?_⟩
    rcases key with _ | key
    · simp [keyNumeral, hpart, hi] at hnum
    · rfl
  rw [hindex]
  simp only [parseElement, hpart] at h
  split at h
  · cases h
  · split at h
    · cases h
    · split_ifs at h with hu hl hl hk
      all_goals cases h
      · rw [hu]
      · rw [hu]
        exact iff_of_false (by decide) fun hf : indexForbidden = indexKey => absurd hf (by decide)
      · rfl

def copyKey (keys : Memory UInt8) : Option (List UInt8) → Memory UInt8 × Option ℕ
  | none => (keys, none)
  | some key => strdup keys key

theorem parseElems_eq (hpart : parsePart (splitAtByte 46 text).1 = .ok (name, index, key))
    (he : parseElement cls (splitAtByte 46 text).1 = .ok (e, c)) :
    parseElems n cls text depth elem keys =
      if c.valueType ≠ .class ∧ (splitAtByte 46 text).2.isSome then
        (.error (.code .generic), (copyKey keys key).1)
      else
        match n with
        | 0 => (.error (.code .idmefPathDepth), (copyKey keys key).1)
        | n + 1 =>
          match (splitAtByte 46 text).2, c.cls with
          | some rest, some cls' =>
            parseElems n cls' rest (depth + 1) (Function.update elem depth
              ⟨e.index, (copyKey keys key).2, e.position, c.classId, c.valueType⟩)
              (copyKey keys key).1
          | some _, none => (.error (.code .generic), (copyKey keys key).1)
          | none, _ => (.ok (depth + 1, Function.update elem depth
              ⟨e.index, (copyKey keys key).2, e.position, c.classId, c.valueType⟩),
              (copyKey keys key).1) := by
  rw [parseElems]
  simp only [hpart, he]
  cases key <;> rfl

theorem parseElems_cases
    (h : parseElems n cls text depth elem keys = (.ok (d, elem'), keys')) :
    ∃ m name index key e c, n = m + 1 ∧
      parsePart (splitAtByte 46 text).1 = .ok (name, index, key) ∧
      parseElement cls (splitAtByte 46 text).1 = .ok (e, c) ∧
      ((splitAtByte 46 text).2 = none ∨ c.valueType = .class) ∧
      ((splitAtByte 46 text).2 = none ∧ d = depth + 1 ∧ keys' = (copyKey keys key).1 ∧
          elem' = Function.update elem depth
            ⟨e.index, (copyKey keys key).2, e.position, c.classId, c.valueType⟩ ∨
        ∃ rest cls', (splitAtByte 46 text).2 = some rest ∧ c.cls = some cls' ∧
          parseElems m cls' rest (depth + 1) (Function.update elem depth
            ⟨e.index, (copyKey keys key).2, e.position, c.classId, c.valueType⟩)
            (copyKey keys key).1 = (.ok (d, elem'), keys')) := by
  rcases hpart : parsePart (splitAtByte 46 text).1 with err | ⟨name, index, key⟩
  · simp [parseElems, hpart] at h
  rcases he : parseElement cls (splitAtByte 46 text).1 with err | ⟨e, c⟩
  · simp [parseElems, hpart, he] at h
  rw [parseElems_eq hpart he] at h
  split_ifs at h with hleaf
  · cases h
  rcases n with _ | m
  · simp at h
  refine ⟨m, name, index, key, e, c, rfl, rfl, rfl, by simpa [imp_iff_or_not] using hleaf, ?_⟩
  rcases hrest : (splitAtByte 46 text).2 with _ | rest
  · simp only [hrest] at h
    cases h
    exact .inl ⟨rfl, rfl, rfl, rfl⟩
  · rcases hcls : c.cls with _ | cls'
    · simp [hrest, hcls] at h
    · simp only [hrest, hcls] at h
      exact .inr ⟨rest, cls', rfl, rfl, h⟩

theorem quotedKeys_last (h : (splitAtByte 46 text).2 = none) :
    quotedKeys (n + 1) text = (partKey (splitAtByte 46 text).1).toList := by
  rw [quotedKeys, pathParts, h]
  cases hk : partKey (splitAtByte 46 text).1 <;> simp [hk]

theorem quotedKeys_step {rest : List UInt8} (h : (splitAtByte 46 text).2 = some rest) :
    quotedKeys (n + 1) text = (partKey (splitAtByte 46 text).1).toList ++ quotedKeys n rest := by
  rw [quotedKeys, pathParts, h]
  cases hk : partKey (splitAtByte 46 text).1 <;> simp [hk, quotedKeys]

theorem slotAgrees_copyKey (hkey : key.isSome ↔ index = indexKey)
    (hcopy : key.isSome = (copyKey keys key).2.isSome) (position : ℕ) (cls : Option ClassId)
    (valueType : IdmefValueTypeId) :
    SlotAgrees (copyKey keys key).1 ⟨index, (copyKey keys key).2, position, cls, valueType⟩ := by
  constructor
  case agree => rw [← hcopy]; exact hkey
  case live =>
    intro k hk
    rcases key with _ | key
    · cases hk
    · exact (strdup_some hk).2

theorem partKey_eq (h : parsePart part = .ok (name, index, key)) : partKey part = key := by
  rw [partKey, h]

theorem afterCopies_append (keys : Memory UInt8) (key : Option (List UInt8))
    (texts : List (List UInt8)) :
    afterCopies keys (key.toList ++ texts) = afterCopies (copyKey keys key).1 texts := by
  cases key <;> rfl

theorem grantsCopies_append (keys : Memory UInt8) (key : Option (List UInt8))
    (texts : List (List UInt8)) :
    grantsCopies keys (key.toList ++ texts) =
      ((key.isSome == (copyKey keys key).2.isSome) && grantsCopies (copyKey keys key).1 texts) := by
  cases key with
  | none => rfl
  | some key =>
    rw [Option.isSome_some, Bool.true_beq]
    rfl

theorem parseElems_reads (h : parseElems n cls text depth elem keys = (.ok (d, elem'), keys')) :
    ∃ es, parseElements n cls text = .ok es := by
  induction n generalizing cls text depth elem keys with
  | zero =>
    obtain ⟨m, _, _, _, _, _, hm, -⟩ := parseElems_cases h
    omega
  | succ n ih =>
    obtain ⟨m, name, index, key, e, c, hm, -, he, hleaf, h⟩ := parseElems_cases h
    obtain rfl : n = m := by omega
    rw [parseElements, he]
    rcases h with ⟨hrest, -⟩ | ⟨rest, cls', hrest, hcls, h⟩
    · exact ⟨[e], by simp [hrest]⟩
    · obtain ⟨es, hes⟩ := ih h
      have hclass := hleaf.resolve_left (by simp [hrest])
      exact ⟨e :: es, by simp [hrest, hcls, hes, hclass, Except.map]⟩

theorem parseElems_keys (h : parseElems n cls text depth elem keys = (.ok (d, elem'), keys')) :
    keys' = afterCopies keys (quotedKeys n text) := by
  induction n generalizing cls text depth elem keys with
  | zero =>
    obtain ⟨m, _, _, _, _, _, hm, -⟩ := parseElems_cases h
    omega
  | succ n ih =>
    obtain ⟨m, name, index, key, e, c, hm, hpart, -, -, h⟩ := parseElems_cases h
    obtain rfl : n = m := by omega
    rcases h with ⟨hrest, -, rfl, -⟩ | ⟨rest, cls', hrest, -, h⟩
    · rw [quotedKeys_last hrest, partKey_eq hpart, ← List.append_nil key.toList,
        afterCopies_append]
      rfl
    · rw [quotedKeys_step hrest, partKey_eq hpart, afterCopies_append]
      exact ih h

theorem parseElems_other (h : parseElems n cls text depth elem keys = (.ok (d, elem'), keys')) :
    depth < d ∧ ∀ i, i < depth ∨ d ≤ i → elem' i = elem i := by
  induction n generalizing cls text depth elem keys with
  | zero =>
    obtain ⟨m, _, _, _, _, _, hm, -⟩ := parseElems_cases h
    omega
  | succ n ih =>
    obtain ⟨m, name, index, key, e, c, hm, -, -, -, h⟩ := parseElems_cases h
    obtain rfl : n = m := by omega
    rcases h with ⟨-, rfl, -, rfl⟩ | ⟨rest, cls', -, -, h⟩
    · exact ⟨by omega, fun i hi => Function.update_of_ne (by omega) _ _⟩
    · obtain ⟨hlt, hother⟩ := ih h
      refine ⟨by omega, fun i hi => ?_⟩
      rw [hother i (by omega)]
      exact Function.update_of_ne (by omega) _ _

/-- The elements of a name agree if it has no number that is the mark and its keys are copied. -/
theorem parseElems_agrees (h : parseElems n cls text depth elem keys = (.ok (d, elem'), keys'))
    (hnum : ∀ part ∈ pathParts n text, keyNumeral part = false)
    (hgrants : grantsCopies keys (quotedKeys n text)) :
    ∀ i, depth ≤ i → i < d → SlotAgrees keys' (elem' i) := by
  induction n generalizing cls text depth elem keys with
  | zero =>
    obtain ⟨m, _, _, _, _, _, hm, -⟩ := parseElems_cases h
    omega
  | succ n ih =>
    obtain ⟨m, name, index, key, e, c, hm, hpart, he, -, h⟩ := parseElems_cases h
    obtain rfl : n = m := by omega
    have hkey := parseElement_key hpart he (hnum _ (by simp [pathParts]))
    rcases h with ⟨hrest, rfl, rfl, rfl⟩ | ⟨rest, cls', hrest, -, h⟩
    · rw [quotedKeys_last hrest, partKey_eq hpart, ← List.append_nil key.toList,
        grantsCopies_append, Bool.and_eq_true, beq_iff_eq] at hgrants
      intro i hi hlt
      obtain rfl : i = depth := by omega
      rw [Function.update_self]
      exact slotAgrees_copyKey hkey hgrants.1 _ _ _
    · rw [quotedKeys_step hrest, partKey_eq hpart, grantsCopies_append, Bool.and_eq_true,
        beq_iff_eq] at hgrants
      have hnum' : ∀ part ∈ pathParts n rest, keyNumeral part = false := fun part hmem =>
        hnum part (by rw [pathParts, hrest]; exact List.mem_cons_of_mem _ hmem)
      intro i hi hlt
      rcases Nat.eq_or_lt_of_le hi with rfl | hi
      · rw [(parseElems_other h).2 depth (by omega), Function.update_self]
        refine (slotAgrees_copyKey hkey hgrants.1 _ _ _).keeps ?_
        rw [parseElems_keys h]
        exact keeps_afterCopies _ _
      · exact ih h hnum' hgrants.2 i hi hlt

theorem keeps_copyKey (keys : Memory UInt8) (key : Option (List UInt8)) :
    Keeps keys (copyKey keys key).1 := by
  cases key with
  | none => exact Keeps.refl keys
  | some key => exact keeps_strdup keys key

theorem parseElems_part (n : ℕ) (cls : IdmefClassId) (text : List UInt8) (depth : ℕ)
    (elem : ℕ → PathSlot) (keys : Memory UInt8) :
    Keeps keys (parseElems n cls text depth elem keys).2 ∨
      ∃ name index key e c, parsePart (splitAtByte 46 text).1 = .ok (name, index, key) ∧
        parseElement cls (splitAtByte 46 text).1 = .ok (e, c) := by
  rcases hpart : parsePart (splitAtByte 46 text).1 with err | ⟨name, index, key⟩
  · left
    simpa [parseElems, hpart] using Keeps.refl keys
  · rcases he : parseElement cls (splitAtByte 46 text).1 with err | ⟨e, c⟩
    · left
      cases key with
      | none => simpa [parseElems, hpart, he] using Keeps.refl keys
      | some key => simpa [parseElems, hpart, he] using keeps_strdup keys key
    · exact .inr ⟨name, index, key, e, c, rfl, rfl⟩

theorem keeps_parseElems (n : ℕ) (cls : IdmefClassId) (text : List UInt8) (depth : ℕ)
    (elem : ℕ → PathSlot) (keys : Memory UInt8) :
    Keeps keys (parseElems n cls text depth elem keys).2 := by
  induction n generalizing cls text depth elem keys with
  | zero =>
    rcases parseElems_part 0 cls text depth elem keys with h | ⟨_, _, key, _, _, hpart, he⟩
    · exact h
    · rw [parseElems_eq hpart he]
      split_ifs <;> exact keeps_copyKey keys key
  | succ n ih =>
    rcases parseElems_part (n + 1) cls text depth elem keys with h | ⟨_, _, key, _, _, hpart, he⟩
    · exact h
    · rw [parseElems_eq hpart he]
      split_ifs
      · exact keeps_copyKey keys key
      · simp only
        split
        · exact (keeps_copyKey keys key).trans (ih _ _ _ _ _)
        · exact keeps_copyKey keys key
        · exact keeps_copyKey keys key

theorem parseNew_agrees {rootclass : IdmefClassId} {buffer : List UInt8}
    (h : parseNew keys rootclass buffer = (.ok path, keys'))
    (hok : (∃ es, parseElements (maxDepth - 1) rootclass buffer = .ok es) →
      keys' = afterCopies keys (quotedKeys (maxDepth - 1) buffer) →
      (∀ part ∈ pathParts (maxDepth - 1) buffer, keyNumeral part = false) ∧
        grantsCopies keys (quotedKeys (maxDepth - 1) buffer)) : path.KeysAgree keys' := by
  unfold parseNew at h
  split_ifs at h
  · cases h
    exact ⟨nofun, fun _ _ => rfl⟩
  · rcases hr : parseElems (maxDepth - 1) rootclass buffer 0 (fun _ => emptySlot) keys with
      ⟨err | ⟨d, elem⟩, keys₁⟩ <;> rw [hr] at h <;> cases h
    obtain ⟨hnum, hgrants⟩ := hok (parseElems_reads hr) (parseElems_keys hr)
    refine ⟨fun i hi => parseElems_agrees hr hnum hgrants i (Nat.zero_le i) hi, fun i hi => ?_⟩
    simp only [(parseElems_other hr).2 i (.inr hi), emptySlot]

end Parse

section Calls

variable {r : Except PathError ℕ} {depth : ℕ} {index : ℤ} {rootclass : IdmefClassId}
  {buffer : List UInt8}

theorem ref_agrees (hs : s.KeysAgree) (h : s.ref p = some (r, s')) : s'.KeysAgree := by
  obtain ⟨path, hp, hr⟩ := Option.map_eq_some_iff.mp h
  cases hr
  refine hs.setPath ?_ p
  exact (hs p path hp).congr rfl rfl

theorem keeps_parseNew (keys : Memory UInt8) (rootclass : IdmefClassId) (buffer : List UInt8) :
    Keeps keys (parseNew keys rootclass buffer).2 := by
  unfold parseNew
  split_ifs
  · exact Keeps.refl keys
  · exact keeps_parseElems _ _ _ _ _ _

theorem parse_agrees (hs : s.KeysAgree) (hok : s.Harmless (.parse rootclass buffer))
    (h : s.newFromRootFast rootclass buffer = some (r, s')) : s'.KeysAgree := by
  unfold newFromRootFast at h
  split_ifs at h with hlen
  · cases h
    exact hs
  rcases hcached : s.cached rootclass buffer with _ | p <;> rw [hcached] at h
  case some => exact ref_agrees hs h
  rcases hreq : s.keys.request sizeofIdmefPath with ⟨keys, granted⟩
  have hkeys : Keeps s.keys keys := by
    simpa only [hreq] using keeps_request s.keys sizeofIdmefPath
  rcases hnew : parseNew keys rootclass buffer with ⟨made, keys'⟩
  have hkeys' : Keeps s.keys keys' := by
    simpa only [hnew] using hkeys.trans (keeps_parseNew keys rootclass buffer)
  rcases hent : keys'.request sizeofHashElem with ⟨keys'', entered⟩
  have hkeys'' : Keeps s.keys keys'' := by
    simpa only [hent] using hkeys'.trans (keeps_request keys' sizeofHashElem)
  cases granted with
  | false =>
    simp only [hreq] at h
    cases h
    exact hs.memory hkeys
  | true =>
  rcases made with err | path
  · simp only [hreq, hnew] at h
    cases h
    exact hs.memory hkeys'
  cases entered with
  | false =>
    simp only [hreq, hnew, hent] at h
    cases h
    exact hs.append hkeys'' (fun path hpath => absurd hpath (Option.not_mem_none path)) _
  | true =>
    simp only [hreq, hnew, hent] at h
    cases h
    refine hs.append hkeys'' ?_ _
    rintro _ ⟨⟩
    refine PathObject.KeysAgree.keeps (parseNew_agrees hnew fun hread hcopies => ?_) ?_
    · have hmakes : s.MakesPath rootclass buffer := by
        refine ⟨hcached, by omega, hread, by rw [hreq], ?_⟩
        rw [hreq, ← hcopies, hent]
      have := hok hmakes
      rw [hreq] at this
      exact this
    · simpa only [hent] using keeps_request keys' sizeofHashElem

theorem invalidate_some (h : s.invalidate path = some (s', path')) :
    s.Modifiable path ∧ s'.keys = s.keys ∧ s'.paths = s.paths ∧ path'.depth = path.depth ∧
      path'.elem = path.elem := by
  unfold invalidate at h
  split_ifs at h with h1 h2 h3
  · cases h
    exact ⟨.inl h1.le, rfl, rfl, rfl, rfl⟩
  · obtain ⟨q, hq, heq⟩ := Option.map_eq_some_iff.mp h
    cases heq
    exact ⟨.inr ⟨h3, by rw [hq]; rfl⟩, rfl, rfl, rfl, rfl⟩
  · cases h
    exact ⟨.inl (by omega), rfl, rfl, rfl, rfl⟩

theorem KeysAgree.invalidate (hs : s.KeysAgree) (h : s.invalidate path = some (s', path')) :
    s'.KeysAgree := by
  obtain ⟨-, hkeys, hpaths, -, -⟩ := invalidate_some h
  intro p path hp
  rw [PathStore.path, hpaths] at hp
  rw [hkeys]
  exact hs p path hp

theorem buildName_some {ret : Except PathError ℕ}
    (h : path.buildName keys = some (ret, path')) :
    path'.depth = path.depth ∧ path'.elem = path.elem := by
  obtain ⟨x, -, hx⟩ := Option.map_eq_some_iff.mp h
  cases hx
  exact ⟨rfl, rfl⟩

theorem KeysAgree.update {slot : PathSlot} (hpath : path.KeysAgree keys) (hlt : depth < path.depth)
    (hslot : SlotAgrees keys slot) :
    PathObject.KeysAgree keys { path with elem := Function.update path.elem depth slot } := by
  constructor
  case agrees =>
    intro i hi
    rcases eq_or_ne i depth with rfl | hne
    · simpa only [Function.update_self] using hslot
    · simpa only [Function.update_of_ne hne] using hpath.agrees i hi
  case beyond =>
    intro i hi
    simp only at hi
    simpa only [Function.update_of_ne (show i ≠ depth by omega)] using hpath.beyond i hi

theorem setIndex_agrees (hs : s.KeysAgree)
    (hok : ∀ path, s.path p = some path → s.Modifiable path → depth < path.depth →
      index ≠ indexForbidden → index ≠ indexKey → (path.elem depth).index ≠ indexKey)
    (h : s.setIndex p depth index = some (r, s')) : s'.KeysAgree := by
  obtain ⟨path, hp, h⟩ := Option.bind_eq_some_iff.mp h
  split_ifs at h with hdepth hreserved hforbidden
  · cases h
    exact hs
  · cases h
    exact hs
  swap
  · cases h
    exact hs
  rcases hinv : s.invalidate path with _ | ⟨s₁, path₁⟩ <;> rw [hinv] at h
  · cases h
    exact hs
  obtain ⟨hmod, hkeys, -, hd, he⟩ := invalidate_some hinv
  have hs₁ := hs.invalidate hinv
  have hpath := (hs p path hp).congr hd he
  rw [← hkeys] at hpath
  obtain ⟨hf, hk⟩ := not_or.mp hreserved
  have hindex := hok path hp hmod hdepth hf hk
  rw [← he] at hindex
  simp only [freeKey, if_neg hindex, Option.bind_some] at h
  obtain ⟨⟨ret, path₂⟩, hname, heq⟩ := Option.map_eq_some_iff.mp h
  cases heq
  obtain ⟨hd₂, he₂⟩ := buildName_some hname
  have hdepth₁ : depth < path₁.depth := by omega
  have hslot : SlotAgrees s₁.keys { path₁.elem depth with index } :=
    { hpath.agrees depth hdepth₁ with
      agree := ((hpath.agrees depth hdepth₁).agree).trans (iff_of_false hindex hk) }
  exact hs₁.setPath ((KeysAgree.update hpath hdepth₁ hslot).congr hd₂ he₂) p

theorem makeParent_agrees (hs : s.KeysAgree) (hok : s.Harmless (.makeParent p))
    (h : s.makeParent p = some (r, s')) : s'.KeysAgree := by
  obtain ⟨path, hp, h⟩ := Option.bind_eq_some_iff.mp h
  split_ifs at h with hdepth
  · cases h
    exact hs
  rcases hinv : s.invalidate path with _ | ⟨s₁, path₁⟩ <;> rw [hinv] at h
  · cases h
    exact hs
  cases h
  obtain ⟨hmod, hkeys, -, hd, he⟩ := invalidate_some hinv
  have hpath := (hs p path hp).congr hd he
  rw [← hkeys] at hpath
  have hindex := hok path hp hmod (by omega)
  rw [← he, ← hd] at hindex
  refine (hs.invalidate hinv).setPath ?_ p
  constructor
  case agrees => exact fun i hi => hpath.agrees i (by simp only at hi; omega)
  case beyond =>
    intro i hi
    simp only at hi
    rcases Nat.lt_or_ge i path₁.depth with hlt | hge
    · obtain rfl : i = path₁.depth - 1 := by omega
      exact (hpath.agrees _ (by omega)).no_key hindex
    · exact hpath.beyond i hge

/-- The element behind the last one had no key, and the new index is not the mark. -/
theorem makeChild_agrees {childName : List UInt8} (hs : s.KeysAgree)
    (h : s.makeChild p childName index = some (r, s')) : s'.KeysAgree := by
  obtain ⟨path, hp, h⟩ := Option.bind_eq_some_iff.mp h
  by_cases hdepth : maxDepth - 1 < path.depth
  · rw [if_pos hdepth] at h
    cases h
    exact hs
  rw [if_neg hdepth] at h
  rcases hchild : findChild path.getClass childName with err | ⟨child, c⟩ <;> rw [hchild] at h
  · cases h
    exact hs
  rcases hinv : s.invalidate path with _ | ⟨s₁, path₁⟩ <;> simp only [hinv] at h
  · cases h
    exact hs
  cases h
  obtain ⟨-, hkeys, -, hd, he⟩ := invalidate_some hinv
  have hpath := (hs p path hp).congr hd he
  rw [← hkeys] at hpath
  refine (hs.invalidate hinv).setPath ?_ p
  have hnone := hpath.beyond path₁.depth le_rfl
  constructor
  case agrees =>
    intro i hi
    simp only at hi
    rcases eq_or_ne i path₁.depth with rfl | hne
    · simp only [Function.update_self]
      refine ⟨?_, fun key hkey => absurd (hnone.symm.trans hkey) nofun⟩
      simp only [hnone, Option.isSome_none, Bool.false_eq_true, false_iff]
      split_ifs
      · decide
      · unfold indexKey
        omega
      · decide
    · simp only [Function.update_of_ne hne]
      exact hpath.agrees i (by omega)
  case beyond =>
    intro i hi
    simp only at hi
    simp only [Function.update_of_ne (show i ≠ path₁.depth by omega)]
    exact hpath.beyond i (by omega)

section CloneKeys

variable {src elem elem' : ℕ → PathSlot} {i m : ℕ}

theorem unwind_below (h : unwind elem i keys = some keys')
    (hnew : ∀ j < i, ∀ key, (elem j).indexKey = some key → m ≤ key) :
    keys'.blocks.length = keys.blocks.length ∧ ∀ key < m, keys'.bytesAt key = keys.bytesAt key := by
  induction i generalizing keys with
  | zero => cases h
  | succ i ih =>
    rcases i with _ | i
    · cases h
      exact ⟨rfl, fun _ _ => rfl⟩
    rw [unwind] at h
    rcases hkey : (elem (i + 1)).indexKey with _ | key <;> simp only [hkey] at h
    · exact ih h fun j hj => hnew j (by omega)
    · obtain ⟨keys₁, hfree, h⟩ := Option.bind_eq_some_iff.mp h
      obtain ⟨hlength, hbelow⟩ := ih h fun j hj => hnew j (by omega)
      have hm := hnew (i + 1) (by omega) key hkey
      refine ⟨hlength.trans ?_, fun k hk => (hbelow k hk).trans ?_⟩
      · obtain ⟨bytes, -, rfl⟩ := Option.map_eq_some_iff.mp hfree
        simp [Memory.setBlock]
      · rw [(Memory.free_some hfree).1, Function.update_of_ne (by omega)]

theorem strdup_below (keys : Memory UInt8) (text : List UInt8) (hm : m ≤ keys.blocks.length) :
    ∀ key < m, (strdup keys text).1.bytesAt key = keys.bytesAt key := by
  intro key hkey
  rcases strdup_cases keys text with ⟨-, h⟩ | ⟨-, h⟩ <;> rw [h]
  · rfl
  · rw [Memory.bytesAt_addBlock, Function.update_of_ne]
    · rfl
    · simp only [Memory.request_blocks]
      omega

theorem update_src (h : ∀ j, i ≤ j → elem j = src j) (slot : PathSlot) :
    ∀ j, i + 1 ≤ j → Function.update elem i slot j = src j := by
  intro j hj
  rw [Function.update_of_ne (by omega)]
  exact h j (by omega)

theorem cloneKeys_below {ret : Except PathError (ℕ → PathSlot)}
    (h : cloneKeys src n i elem keys = some (ret, keys')) (hm : m ≤ keys.blocks.length)
    (hsrc : ∀ j, i ≤ j → elem j = src j)
    (hnew : ∀ j < i, ∀ key, (elem j).indexKey = some key → m ≤ key) :
    keys.blocks.length ≤ keys'.blocks.length ∧ ∀ key < m, keys'.bytesAt key = keys.bytesAt key := by
  induction n generalizing i elem keys with
  | zero =>
    cases h
    exact ⟨le_rfl, fun _ _ => rfl⟩
  | succ n ih =>
    rw [cloneKeys] at h
    rcases hkey : (src i).indexKey with _ | key <;> simp only [hkey] at h
    · refine ih h hm (fun j hj => hsrc j (by omega)) fun j hj key hk => ?_
      rcases Nat.eq_or_lt_of_le (Nat.le_of_lt_succ hj) with rfl | hj
      · rw [hsrc j le_rfl, hkey] at hk
        cases hk
      · exact hnew j hj key hk
    · obtain ⟨text, -, h⟩ := Option.bind_eq_some_iff.mp h
      have hlength := (keeps_strdup keys text).length
      have hbelow := strdup_below keys text hm
      rcases hdup : strdup keys text with ⟨keys₁, _ | copy⟩ <;>
        rw [hdup] at h hlength hbelow <;> simp only at h hlength hbelow
      · obtain ⟨keys₂, hunwind, heq⟩ := Option.map_eq_some_iff.mp h
        cases heq
        obtain ⟨hl, hb⟩ := unwind_below hunwind hnew
        exact ⟨by omega, fun key hk => (hb key hk).trans (hbelow key hk)⟩
      · have hcopy : copy = keys.blocks.length := (strdup_some (by rw [hdup])).1
        have hnew' : ∀ j < i + 1, ∀ key, (Function.update elem i
            { src i with indexKey := some copy } j).indexKey = some key → m ≤ key := by
          intro j hj key hk
          rcases eq_or_ne j i with rfl | hne
          · rw [Function.update_self] at hk
            obtain rfl : copy = key := Option.some.inj hk
            omega
          · rw [Function.update_of_ne hne] at hk
            exact hnew j (by omega) key hk
        obtain ⟨hl, hb⟩ := ih h (hm.trans hlength) (update_src hsrc _) hnew'
        exact ⟨hlength.trans hl, fun key hk => (hb key hk).trans (hbelow key hk)⟩

/-- The elements of a copy agree, and those behind them are as they were. -/
theorem cloneKeys_agrees (h : cloneKeys src n i elem keys = some (.ok elem', keys'))
    (hsrc : ∀ j, i ≤ j → elem j = src j) (hagrees : ∀ j < i + n, SlotAgrees keys (elem j)) :
    (∀ j < i + n, SlotAgrees keys' (elem' j)) ∧ ∀ j, i + n ≤ j → elem' j = elem j := by
  induction n generalizing i elem keys with
  | zero =>
    cases h
    exact ⟨hagrees, fun _ _ => rfl⟩
  | succ n ih =>
    rw [← Nat.add_assoc, Nat.add_right_comm] at hagrees ⊢
    rw [cloneKeys] at h
    rcases hkey : (src i).indexKey with _ | key <;> simp only [hkey] at h
    · exact ih h (fun j hj => hsrc j (by omega)) hagrees
    · obtain ⟨text, -, h⟩ := Option.bind_eq_some_iff.mp h
      rcases hdup : strdup keys text with ⟨keys₁, _ | copy⟩ <;> rw [hdup] at h <;> simp only at h
      · obtain ⟨keys₂, -, heq⟩ := Option.map_eq_some_iff.mp h
        cases heq
      · have hkeeps : Keeps keys keys₁ := by
          simpa only [hdup] using keeps_strdup keys text
        have hlive : (keys₁.bytesAt copy).isSome := by
          have hcopy : (strdup keys text).2 = some copy := by rw [hdup]
          simpa only [hdup] using (strdup_some hcopy).2
        have hagrees' : ∀ j < i + 1 + n, SlotAgrees keys₁
            (Function.update elem i { src i with indexKey := some copy } j) := by
          intro j hj
          rcases eq_or_ne j i with rfl | hne
          · rw [Function.update_self]
            have hi := (hagrees j hj).agree
            rw [hsrc j le_rfl, hkey] at hi
            refine ⟨iff_of_true rfl (hi.mp rfl), ?_⟩
            rintro _ ⟨⟩
            exact hlive
          · rw [Function.update_of_ne hne]
            exact (hagrees j hj).keeps hkeeps
        obtain ⟨hcopied, hother⟩ := ih h (update_src hsrc _) hagrees'
        refine ⟨hcopied, fun j hj => (hother j hj).trans ?_⟩
        exact Function.update_of_ne (by omega) _ _

end CloneKeys

theorem clone_agrees (hs : s.KeysAgree) (h : s.clone p = some (r, s')) : s'.KeysAgree := by
  obtain ⟨src, hp, h⟩ := Option.bind_eq_some_iff.mp h
  rcases hreq : s.keys.request sizeofIdmefPath with ⟨keys, granted⟩
  have hkeys : Keeps s.keys keys := by
    simpa only [hreq] using keeps_request s.keys sizeofIdmefPath
  rw [hreq] at h
  cases granted with
  | false =>
    cases h
    exact hs.memory hkeys
  | true =>
    obtain ⟨⟨ret, keys'⟩, hclone, heq⟩ := Option.map_eq_some_iff.mp h
    have hkeys' : Keeps keys keys' := by
      obtain ⟨hlength, hbelow⟩ :=
        cloneKeys_below hclone le_rfl (fun _ _ => rfl) fun _ hj => absurd hj (Nat.not_lt_zero _)
      refine ⟨hlength, fun key hk => ?_⟩
      obtain ⟨bytes, hbytes⟩ := Option.isSome_iff_exists.mp hk
      rwa [hbelow key (Memory.lt_of_bytesAt hbytes)]
    have hsrc := (hs p src hp).keeps hkeys
    rcases ret with err | elem
    · cases heq
      exact hs.memory (hkeys.trans hkeys')
    · cases heq
      refine hs.append (hkeys.trans hkeys') ?_ _
      obtain ⟨hcopied, hother⟩ :=
        cloneKeys_agrees hclone (fun _ _ => rfl) fun j hj => hsrc.agrees j (by omega)
      intro path hpath
      obtain rfl := Option.some.inj hpath
      constructor
      case agrees => exact fun i hi => hcopied i (by rwa [Nat.zero_add])
      case beyond =>
        intro i hi
        simp only at hi ⊢
        rw [hother i (by rwa [Nat.zero_add])]
        exact hsrc.beyond i hi

theorem Harmless.step {op : Op} (hs : s.KeysAgree) (hop : s.Harmless op)
    (h : s.step op = some s') : s'.KeysAgree := by
  obtain ⟨⟨r, s₁⟩, hcall, rfl⟩ := Option.map_eq_some_iff.mp h
  cases op with
  | parse rootclass buffer => exact parse_agrees hs hop hcall
  | setIndex p depth index => exact setIndex_agrees hs hop hcall
  | undefineIndex p depth =>
    exact setIndex_agrees hs (fun path hp hmod hlt _ _ => hop path hp hmod hlt) hcall
  | makeChild p childName index => exact makeChild_agrees hs hcall
  | makeParent p => exact makeParent_agrees hs hop hcall
  | clone p => exact clone_agrees hs hcall
  | ref p => exact ref_agrees hs hcall

end Calls

theorem KeysAgree.run {ops : List Op} (hs : s.KeysAgree) (hops : s.HarmlessRun ops)
    (h : s.run ops = some s') : s'.KeysAgree := by
  induction ops generalizing s with
  | nil =>
    cases h
    exact hs
  | cons op ops ih =>
    rw [PathStore.run, List.foldlM_cons] at h
    obtain ⟨s₁, hstep, h⟩ := Option.bind_eq_some_iff.mp h
    exact ih (hops.1.step hs hstep) (hops.2 s₁ hstep) h

def init (keys : Memory UInt8) : PathStore := ⟨keys, [], []⟩

/-- Keys and indices agree along every run of harmless calls. -/
theorem run_keysAgree (keys : Memory UInt8) (ops : List Op) (s : PathStore)
    (hops : (init keys).HarmlessRun ops) (h : (init keys).run ops = some s) : s.KeysAgree :=
  KeysAgree.run (fun p path hp => by simp [PathStore.path, init] at hp) hops h

theorem quotedPath_cloned : ∃ s, (init ⟨[], [], 1000, 0⟩).run
    [.parse .message (ascii "alert.additional_data('a').data"), .clone 0] = some s ∧
      s.KeysAgree := by
  have hops : (init ⟨[], [], 1000, 0⟩).HarmlessRun
      [.parse .message (ascii "alert.additional_data('a').data"), .clone 0] :=
    ⟨fun _ => by decide +kernel, fun _ _ => ⟨trivial, fun _ _ => trivial⟩⟩
  have hrun : ((init ⟨[], [], 1000, 0⟩).run
      [.parse .message (ascii "alert.additional_data('a').data"), .clone 0]).isSome := by
    decide +kernel
  obtain ⟨s, hs⟩ := Option.isSome_iff_exists.mp hrun
  exact ⟨s, hs, run_keysAgree _ _ s hops hs⟩

/-- An index takes the place of a key, and the key is released and stays in the element. -/
theorem setIndex_leavesKey : ¬ ∀ keys ops s, (init keys).run ops = some s → s.KeysAgree := by
  intro hall
  have hrun : ((init ⟨[], [], 1000, 0⟩).run
      [.parse .message (ascii "alert.additional_data('a').data"), .setIndex 0 1 0]).bind
        (fun s => (s.path 0).map fun path =>
          (path.depth, (path.elem 1).index, (path.elem 1).indexKey, s.keys.bytesAt 0)) =
      some (3, 0, some 0, none) := by
    decide +kernel
  obtain ⟨s, hs, hrun⟩ := Option.bind_eq_some_iff.mp hrun
  obtain ⟨path, hp, helem⟩ := Option.map_eq_some_iff.mp hrun
  simp only [Prod.mk.injEq] at helem
  obtain ⟨hdepth, hindex, hkey, hdead⟩ := helem
  have hagrees := (hall _ _ s hs 0 path hp).agrees 1 (by omega)
  have hlive := hagrees.live 0 hkey
  rw [hdead] at hlive
  cases hlive

end PathStore

end LibPrelude
