import LibPrelude.Idmef.Schema

/-! # The tags of an IDMEF message

On the wire every class but the one of whole messages has a tag, and so has every field
that holds no object of a class. Within a class no two fields share a tag.
-/

namespace LibPrelude

def idmefMsgEndOfTag : UInt8 := 254

/-- The tag that starts an object of a class; a message starts without one. -/
def IdmefClassId.tag : IdmefClassId → Option UInt8
  | additionalData => some 0
  | reference => some 1
  | classification => some 2
  | userId => some 3
  | user => some 4
  | address => some 5
  | process => some 6
  | webService => some 7
  | snmpService => some 8
  | service => some 9
  | node => some 10
  | source => some 11
  | fileAccess => some 12
  | inode => some 13
  | checksum => some 14
  | file => some 15
  | linkage => some 16
  | target => some 17
  | analyzer => some 18
  | alertident => some 19
  | impact => some 20
  | action => some 21
  | confidence => some 22
  | assessment => some 23
  | toolAlert => some 24
  | correlationAlert => some 25
  | overflowAlert => some 26
  | alert => some 27
  | heartbeat => some 28
  | message => none

/-- The tags of the fields of a class; a field of objects goes by the tag of their class. -/
def IdmefClassId.fieldTags : IdmefClassId → List (Option UInt8)
  | additionalData => [some 30, some 29, some 31]
  | reference => [some 29, some 30, some 31, some 32]
  | classification => [some 29, some 30, none]
  | userId => [some 29, some 30, some 31, some 32, some 33]
  | user => [some 29, some 30, none]
  | address => [some 29, some 30, some 31, some 32, some 33, some 34]
  | process => [some 29, some 30, some 31, some 32, some 33, some 34]
  | webService => [some 29, some 30, some 31, some 32]
  | snmpService => [some 29, some 30, some 31, some 32, some 33, some 34, some 35, some 36]
  | service => [some 29, some 30, some 31, some 32, some 33, some 34, some 35, some 36, none]
  | node => [some 29, some 30, some 32, some 31, none]
  | source => [some 29, some 30, some 31, none, none, none, none]
  | fileAccess => [none, some 29]
  | inode => [some 29, some 30, some 31, some 32, some 33, some 34]
  | checksum => [some 29, some 30, some 31]
  | file =>
    [some 29, some 30, some 31, some 32, some 33, some 34, some 35, some 36, none, none, none,
      none, some 37, some 38, some 39]
  | linkage => [some 29, some 30, some 31, none]
  | target => [some 29, some 30, some 31, none, none, none, none, none]
  | analyzer =>
    [some 29, some 30, some 31, some 32, some 33, some 34, some 35, some 36, none, none]
  | alertident => [some 29, some 30]
  | impact => [some 29, some 30, some 31, some 32]
  | action => [some 29, some 30]
  | confidence => [some 29, some 30]
  | assessment => [none, none, none]
  | toolAlert => [some 29, some 30, none]
  | correlationAlert => [some 29, none]
  | overflowAlert => [some 29, some 30, some 31]
  | alert => [some 29, none, some 30, none, some 31, some 32, none, none, none, none, none]
  | heartbeat => [some 29, none, some 30, some 31, some 32, none]
  | message => [some 29, none]

/-- A field with its own tag. -/
abbrev WireField := FieldDesc × Option UInt8

def IdmefClassId.wireFields (cls : IdmefClassId) : List WireField := cls.fields.zip cls.fieldTags

def WireField.tags (d : WireField) : List UInt8 :=
  match d.1.type with
  | .struct cls _ | .structList cls _ => cls.tag.toList
  | .union members => members.filterMap fun m => m.cls.tag
  | _ => d.2.toList

/-- The field of a class that a tag belongs to. -/
def IdmefClassId.fieldOf (cls : IdmefClassId) (tag : UInt8) : Option ℕ :=
  cls.wireFields.findIdx? fun d => tag ∈ d.tags

theorem length_fieldTags (cls : IdmefClassId) : cls.fieldTags.length = cls.fields.length := by
  cases cls <;> rfl

theorem map_fst_wireFields (cls : IdmefClassId) : cls.wireFields.map Prod.fst = cls.fields :=
  List.map_fst_zip (Nat.le_of_eq (length_fieldTags cls).symm)

theorem nodup_tags (cls : IdmefClassId) :
    (idmefMsgEndOfTag :: cls.wireFields.flatMap WireField.tags).Nodup := by
  cases cls <;> decide

theorem findIdx?_mem_flatMap {α β : Type*} [DecidableEq β] {f : α → List β} {b : β} :
    ∀ {l : List α} {i : ℕ} {a : α}, (l.flatMap f).Nodup → l[i]? = some a → b ∈ f a →
      (l.findIdx? fun a => b ∈ f a) = some i
  | [], _, _, _, h, _ => by simp at h
  | x :: l, 0, a, _, h, hb => by
    obtain rfl := Option.some.inj h
    simp [List.findIdx?_cons, hb]
  | x :: l, i + 1, a, hn, h, hb => by
    rw [List.flatMap_cons, List.nodup_append] at hn
    have hmem : b ∈ l.flatMap f := List.mem_flatMap.mpr ⟨a, List.mem_of_getElem? h, hb⟩
    have hx : b ∉ f x := fun hx => hn.2.2 b hx b hmem rfl
    rw [List.findIdx?_cons, if_neg (by simpa using hx), findIdx?_mem_flatMap hn.2.1 h hb]
    rfl

theorem fieldOf_tags {cls : IdmefClassId} {i : ℕ} {d : WireField} {tag : UInt8}
    (hd : cls.wireFields[i]? = some d) (htag : tag ∈ d.tags) :
    cls.fieldOf tag = some i ∧ tag ≠ idmefMsgEndOfTag := by
  have hn := List.nodup_cons.mp (nodup_tags cls)
  refine ⟨findIdx?_mem_flatMap hn.2 hd htag, ?_⟩
  rintro rfl
  exact hn.1 (List.mem_flatMap.mpr ⟨d, List.mem_of_getElem? hd, htag⟩)

theorem fieldOf_eq_some {cls : IdmefClassId} {i : ℕ} {tag : UInt8} (h : cls.fieldOf tag = some i) :
    ∃ d, cls.wireFields[i]? = some d ∧ tag ∈ d.tags := by
  obtain ⟨hi, htag, -⟩ := List.findIdx?_eq_some_iff_getElem.mp h
  exact ⟨_, List.getElem?_eq_getElem hi, by simpa using htag⟩

end LibPrelude
