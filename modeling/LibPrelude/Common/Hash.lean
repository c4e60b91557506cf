import LibPrelude.Common.Lists
import LibPrelude.General.Keyed
import LibPrelude.Message.Basic
import Mathlib.Algebra.BigOperators.Group.Finset.Piecewise
import Mathlib.Algebra.Order.Group.Multiset

/-! # Hash tables

A table has a list of elements for every value of the hash function modulo the number of
lists. An element holds a key and a value, which are handed to the table and given to the
functions that destroy them once the element goes or holds others.
-/

namespace LibPrelude

/-- What a table is made with: equal keys hash equally, and either function that destroys may be
missing. -/
structure HashFuncs (K : Type*) where
  listsSize : ℕ
  hashFunc : K → UInt32
  keyCmpFunc : K → K → ℤ
  keyDestroyFunc : Bool
  valueDestroyFunc : Bool
  listsSize_pos : 0 < listsSize
  cmp_refl : ∀ k, keyCmpFunc k k = 0
  cmp_symm : ∀ {k k'}, keyCmpFunc k k' = 0 → keyCmpFunc k' k = 0
  cmp_trans : ∀ {k k' k''}, keyCmpFunc k k' = 0 → keyCmpFunc k' k'' = 0 → keyCmpFunc k k'' = 0
  hash_eq : ∀ {k k'}, keyCmpFunc k k' = 0 → hashFunc k = hashFunc k'

/-- The heads of the lists and the elements in them. -/
inductive HashNode where
  | list (i : ℕ)
  | elem (e : ℕ)
  deriving DecidableEq

/-- A value may be the null pointer. -/
structure HashElem (K V : Type*) where
  key : K
  value : Option V
  deriving DecidableEq

/-- The links, the elements that are allocated, the address of the next one, and what the
functions that destroy were called with. -/
structure PreludeHash (K V : Type*) where
  links : Links HashNode
  elems : ℕ → Option (HashElem K V)
  nextElem : ℕ
  keysDestroyed : List K
  valuesDestroyed : List (Option V)

variable {K V : Type*}

namespace HashFuncs

def hashValueCalc (f : HashFuncs K) (key : K) : ℕ := (f.hashFunc key).toNat % f.listsSize

/-- The comparison as a test of keys. -/
def test (f : HashFuncs K) : KeyTest K where
  same k k' := f.keyCmpFunc k k' = 0
  refl k := decide_eq_true (f.cmp_refl k)
  symm h := decide_eq_true (f.cmp_symm (of_decide_eq_true h))
  trans h h' := decide_eq_true (f.cmp_trans (of_decide_eq_true h) (of_decide_eq_true h'))

end HashFuncs

namespace PreludeHash

def entry (h : PreludeHash K V) : HashNode → Option (ℕ × HashElem K V)
  | .list _ => none
  | .elem e => (h.elems e).map (e, ·)

/-- There is no result when an element that has been freed is read. -/
def hashElemGet (f : HashFuncs K) (fuel : ℕ) (h : PreludeHash K V) (key : K) :
    Option (Option (ℕ × HashElem K V)) :=
  (h.links.preludeListForEach (.list (f.hashValueCalc key)) (fun ptr _ =>
    match h.entry ptr with
    | none => .inr none
    | some p => if f.keyCmpFunc key p.2.key = 0 then .inr (some p) else .inl ()) fuel ()).bind
    fun r => r.elim (fun _ => some none) fun p => p.map some

def hashElemKeyDestroy (f : HashFuncs K) (h : PreludeHash K V) (elem : HashElem K V) :
    PreludeHash K V :=
  if f.keyDestroyFunc then { h with keysDestroyed := h.keysDestroyed ++ [elem.key] } else h

def hashElemValueDestroy (f : HashFuncs K) (h : PreludeHash K V) (elem : HashElem K V) :
    PreludeHash K V :=
  if f.valueDestroyFunc then { h with valuesDestroyed := h.valuesDestroyed ++ [elem.value] } else h

def preludeHashNew2 (f : HashFuncs K) (links : Links HashNode) : PreludeHash K V where
  links := (List.range f.listsSize).foldl (fun s i => s.preludeListInit (.list i)) links
  elems _ := none
  nextElem := 0
  keysDestroyed := []
  valuesDestroyed := []

def preludeHashAdd (f : HashFuncs K) (h : PreludeHash K V) (key : K) (value : Option V)
    (granted : Bool) : Except ErrorCode ℤ × PreludeHash K V :=
  if granted then
    (.ok 1, { h with
      elems := Function.update h.elems h.nextElem (some ⟨key, value⟩)
      nextElem := h.nextElem + 1
      links := h.links.preludeListAdd (.list (f.hashValueCalc key)) (.elem h.nextElem) })
  else (.error .enomem, h)

def preludeHashSet (f : HashFuncs K) (fuel : ℕ) (h : PreludeHash K V) (key : K) (value : Option V)
    (granted : Bool) : Option (Except ErrorCode ℤ × PreludeHash K V) :=
  match hashElemGet f fuel h key with
  | none => none
  | some (some (e, elem)) =>
    let h := hashElemKeyDestroy f h elem
    let h := hashElemValueDestroy f h elem
    some (.ok 0, { h with elems := Function.update h.elems e (some ⟨key, value⟩) })
  | some none => some (preludeHashAdd f h key value granted)

def preludeHashGet (f : HashFuncs K) (fuel : ℕ) (h : PreludeHash K V) (key : K) :
    Option (Option V) :=
  (hashElemGet f fuel h key).map fun p => p.bind fun p => p.2.value

/-- The list link of an element is undone before the element is freed. -/
def hashElemFree (f : HashFuncs K) (h : PreludeHash K V) (e : ℕ) (elem : HashElem K V) :
    PreludeHash K V :=
  let h := hashElemKeyDestroy f h elem
  let h := hashElemValueDestroy f h elem
  { h with
    links := h.links.preludeListDel (.elem e)
    elems := Function.update h.elems e none }

def preludeHashElemDestroy (f : HashFuncs K) (fuel : ℕ) (h : PreludeHash K V) (key : K) :
    Option (ℤ × PreludeHash K V) :=
  match hashElemGet f fuel h key with
  | none => none
  | some none => some (-1, h)
  | some (some (e, elem)) => some (0, hashElemFree f h e elem)

/-- The safe loop over one list, with the node after the current one read ahead. -/
def destroyList (f : HashFuncs K) (list : HashNode) :
    ℕ → PreludeHash K V → HashNode → HashNode → Option (PreludeHash K V)
  | 0, _, _, _ => none
  | fuel + 1, h, ptr, tmp =>
    if ptr = list then some h
    else
      match h.entry ptr with
      | none => none
      | some (e, elem) =>
        let h := hashElemFree f h e elem
        destroyList f list fuel h tmp (h.links.next tmp)

def destroyLists (f : HashFuncs K) (fuel : ℕ) : List ℕ → PreludeHash K V → Option (PreludeHash K V)
  | [], h => some h
  | cnt :: cnts, h =>
    let first := h.links.next (.list cnt)
    (destroyList f (.list cnt) fuel h first (h.links.next first)).bind (destroyLists f fuel cnts)

def preludeHashDestroy (f : HashFuncs K) (fuel : ℕ) (h : PreludeHash K V) :
    Option (PreludeHash K V) :=
  destroyLists f fuel (List.range f.listsSize) h

variable {f : HashFuncs K} {h : PreludeHash K V} {chain : ℕ → List (ℕ × HashElem K V)}
  {l l₁ l₂ : List (ℕ × HashElem K V)} {elem : HashElem K V} {key k : K} {value : Option V}
  {e i j : ℕ} {fuel : ℕ}

theorem hashValueCalc_lt (f : HashFuncs K) (key : K) : f.hashValueCalc key < f.listsSize :=
  Nat.mod_lt _ f.listsSize_pos

theorem hashValueCalc_eq (hk : f.test.same k key) : f.hashValueCalc k = f.hashValueCalc key := by
  rw [HashFuncs.hashValueCalc, f.hash_eq (of_decide_eq_true hk), HashFuncs.hashValueCalc]

def keyOf (p : ℕ × HashElem K V) : K := p.2.key

def nodes (l : List (ℕ × HashElem K V)) : List HashNode := l.map fun p => .elem p.1

/-- A list of a table holds the given elements; each is in the list of its key, and none has the
key of another one. -/
structure Holds (f : HashFuncs K) (h : PreludeHash K V) (i : ℕ) (l : List (ℕ × HashElem K V)) :
    Prop where
  ring : h.links.Ring (.list i) (nodes l)
  live : ∀ p ∈ l, h.elems p.1 = some p.2
  bucket : ∀ p ∈ l, f.hashValueCalc p.2.key = i
  fresh : ∀ p ∈ l, p.1 < h.nextElem
  distinct : f.test.Distinct keyOf l
  length : l.length ≤ h.nextElem

def Chained (f : HashFuncs K) (h : PreludeHash K V) (chain : ℕ → List (ℕ × HashElem K V)) : Prop :=
  ∀ i < f.listsSize, Holds f h i (chain i)

/-- The value of a key in the lists. -/
def contents (f : HashFuncs K) (chain : ℕ → List (ℕ × HashElem K V)) (k : K) :
    Option (Option V) :=
  (f.test.find keyOf k (chain (f.hashValueCalc k))).map fun p => p.2.value

theorem visit_nodes (hlive : ∀ p ∈ l, h.elems p.1 = some p.2) (key : K) :
    visit (fun ptr (_ : Unit) =>
      match h.entry ptr with
      | none => .inr none
      | some p => if f.keyCmpFunc key p.2.key = 0 then .inr (some p) else .inl ()) (nodes l) () =
      (f.test.find keyOf key l).elim (.inl ()) fun p => .inr (some p) := by
  induction l with
  | nil => rfl
  | cons p l ih =>
    have hentry : h.entry (.elem p.1) = some p := by
      rw [entry, hlive p List.mem_cons_self]
      rfl
    have hsame : f.test.same key (keyOf p) = decide (f.keyCmpFunc key p.2.key = 0) := rfl
    rw [nodes, List.map_cons, visit, hentry, KeyTest.find_cons, hsame]
    by_cases hk : f.keyCmpFunc key p.2.key = 0
    · simp [hk]
    · simp only [hk, decide_false, if_false, Bool.false_eq_true]
      exact ih fun q hq => hlive q (List.mem_cons_of_mem _ hq)

theorem hashElemGet_spec (hc : Chained f h chain) (hfuel : h.nextElem < fuel) (key : K) :
    hashElemGet f fuel h key = some (f.test.find keyOf key (chain (f.hashValueCalc key))) := by
  have hb := hc _ (hashValueCalc_lt f key)
  have hlength : (nodes (chain (f.hashValueCalc key))).length < fuel := by
    rw [nodes, List.length_map]
    exact hb.length.trans_lt hfuel
  rw [hashElemGet, Links.preludeListForEach, hb.ring.loop_next hlength, visit_nodes hb.live]
  cases f.test.find keyOf key (chain (f.hashValueCalc key)) <;> rfl

theorem preludeHashGet_spec (hc : Chained f h chain) (hfuel : h.nextElem < fuel) (key : K) :
    preludeHashGet f fuel h key = some (contents f chain key).join := by
  rw [preludeHashGet, hashElemGet_spec hc hfuel, contents]
  cases f.test.find keyOf key (chain (f.hashValueCalc key)) <;> rfl

theorem mem_nodes {y : HashNode} : y ∈ nodes l ↔ ∃ p ∈ l, .elem p.1 = y := List.mem_map

theorem Holds.disjoint (hl : Holds f h i l) (hl' : Holds f h j l₁) (hij : i ≠ j) {y : HashNode}
    (hy : y ∈ HashNode.list i :: nodes l) : y ∉ HashNode.list j :: nodes l₁ := by
  intro hy'
  rcases List.mem_cons.mp hy with rfl | hy <;> rcases List.mem_cons.mp hy' with hy' | hy'
  · exact hij (HashNode.list.inj hy')
  · obtain ⟨p, -, hp⟩ := mem_nodes.mp hy'
    cases hp
  · obtain ⟨p, -, hp⟩ := mem_nodes.mp hy
    exact nomatch hp.trans hy'
  · obtain ⟨p, hp, rfl⟩ := mem_nodes.mp hy
    obtain ⟨q, hq, heq⟩ := mem_nodes.mp hy'
    have hlive := hl'.live q hq
    rw [HashNode.elem.inj heq, hl.live p hp, Option.some.injEq] at hlive
    exact hij ((hl.bucket p hp).symm.trans (hlive ▸ hl'.bucket q hq))

/-- One list changes and the others are as they were. -/
theorem Chained.update {h' : PreludeHash K V} {b : ℕ} (hc : Chained f h chain)
    (hb : Holds f h' b l)
    (hother : ∀ i < f.listsSize, i ≠ b → Holds f h i (chain i) → Holds f h' i (chain i)) :
    Chained f h' (Function.update chain b l) := by
  intro i hi
  by_cases hib : i = b
  · subst hib
    rwa [Function.update_self]
  · rw [Function.update_of_ne hib]
    exact hother i hi hib (hc i hi)

theorem Holds.elsewhere {h' : PreludeHash K V} (hl : Holds f h i l)
    (hring : h'.links.Ring (.list i) (nodes l)) (helems : ∀ p ∈ l, h'.elems p.1 = h.elems p.1)
    (hnext : h.nextElem ≤ h'.nextElem) : Holds f h' i l where
  ring := hring
  live p hp := (helems p hp).trans (hl.live p hp)
  bucket := hl.bucket
  fresh p hp := (hl.fresh p hp).trans_le hnext
  distinct := hl.distinct
  length := hl.length.trans hnext

theorem Holds.elem_notMem (hl : Holds f h i l) : HashNode.elem h.nextElem ∉ .list i :: nodes l := by
  intro hm
  rcases List.mem_cons.mp hm with hm | hm
  · cases hm
  · obtain ⟨p, hp, heq⟩ := mem_nodes.mp hm
    exact absurd (HashNode.elem.inj heq) (Nat.ne_of_lt (hl.fresh p hp))

theorem Chained.add (hc : Chained f h chain) (key : K) (value : Option V)
    (hnone : f.test.find keyOf key (chain (f.hashValueCalc key)) = none) :
    Chained f (preludeHashAdd f h key value true).2
      (Function.update chain (f.hashValueCalc key)
        ((h.nextElem, ⟨key, value⟩) :: chain (f.hashValueCalc key))) := by
  have hb := hc _ (hashValueCalc_lt f key)
  have hold {i : ℕ} (hi : Holds f h i (chain i)) {p : ℕ × HashElem K V} (hp : p ∈ chain i) :
      (preludeHashAdd f h key value true).2.elems p.1 = h.elems p.1 :=
    Function.update_of_ne (Nat.ne_of_lt (hi.fresh p hp)) ..
  refine hc.update ?_ fun i hi hib hl => ?_
  · exact {
      ring := Links.add_head hb.ring hb.elem_notMem
      live := fun p hp => by
        rcases List.mem_cons.mp hp with rfl | hp
        · exact Function.update_self ..
        · exact (hold hb hp).trans (hb.live p hp)
      bucket := List.forall_mem_cons.mpr ⟨rfl, hb.bucket⟩
      fresh := List.forall_mem_cons.mpr
        ⟨Nat.lt_succ_self _, fun p hp => Nat.lt_succ_of_lt (hb.fresh p hp)⟩
      distinct := hb.distinct.cons hnone
      length := Nat.succ_le_succ hb.length }
  · refine hl.elsewhere ?_ (fun p hp => hold hl hp) (Nat.le_succ _)
    refine hl.ring.link_elsewhere hl.elem_notMem ?_ ?_
    · exact hb.disjoint hl (Ne.symm hib) List.mem_cons_self
    · refine hb.disjoint hl (Ne.symm hib) ?_
      rw [hb.ring.next.first]
      cases nodes (chain (f.hashValueCalc key)) <;> simp

theorem Holds.ne_of_mem (hl : Holds f h i (l₁ ++ (e, elem) :: l₂)) {p : ℕ × HashElem K V}
    (hp : p ∈ l₁ ++ l₂) : p.1 ≠ e := by
  rintro rfl
  have hnodup := (List.nodup_cons.mp hl.ring.nodup).2
  rw [nodes, List.map_append, List.map_cons, List.nodup_middle, ← List.map_append] at hnodup
  exact (List.nodup_cons.mp hnodup).1 (List.mem_map.mpr ⟨p, hp, rfl⟩)

theorem Holds.ne_of_other (hl : Holds f h i (l₁ ++ (e, elem) :: l₂)) (hl' : Holds f h j l)
    (hji : j ≠ i) {p : ℕ × HashElem K V} (hp : p ∈ l) : p.1 ≠ e := by
  rintro rfl
  refine hl'.disjoint hl hji (List.mem_cons_of_mem _ (mem_nodes.mpr ⟨p, hp, rfl⟩)) ?_
  exact List.mem_cons_of_mem _ (mem_nodes.mpr ⟨(p.1, elem), by simp, rfl⟩)

/-- An element holds another key that is equal and another value. -/
theorem Chained.replace (hc : Chained f h chain)
    (hsplit : chain (f.hashValueCalc key) = l₁ ++ (e, elem) :: l₂)
    (hk : f.test.same key elem.key) (value : Option V) :
    Chained f { h with elems := Function.update h.elems e (some ⟨key, value⟩) }
      (Function.update chain (f.hashValueCalc key) (l₁ ++ (e, ⟨key, value⟩) :: l₂)) := by
  have hb := hc _ (hashValueCalc_lt f key)
  rw [hsplit] at hb
  have hold {p : ℕ × HashElem K V} (hp : p ∈ l₁ ++ l₂) : p ∈ l₁ ++ (e, elem) :: l₂ :=
    List.perm_middle.mem_iff.mpr (List.mem_cons_of_mem _ hp)
  refine hc.update ?_ fun i hi hib hl => ?_
  · exact {
      ring := by
        have hring := hb.ring
        rwa [nodes, List.map_append, List.map_cons] at hring ⊢
      live := fun p hp => by
        rcases List.mem_cons.mp (List.perm_middle.mem_iff.mp hp) with rfl | hp
        · exact Function.update_self ..
        · exact (Function.update_of_ne (hb.ne_of_mem hp) ..).trans (hb.live p (hold hp))
      bucket := fun p hp => by
        rcases List.mem_cons.mp (List.perm_middle.mem_iff.mp hp) with rfl | hp
        · rfl
        · exact hb.bucket p (hold hp)
      fresh := fun p hp => by
        rcases List.mem_cons.mp (List.perm_middle.mem_iff.mp hp) with rfl | hp
        · exact hb.fresh (e, elem) (by simp)
        · exact hb.fresh p (hold hp)
      distinct := hb.distinct.replace hk
      length := by simpa using hb.length }
  · exact hl.elsewhere hl.ring (fun p hp => Function.update_of_ne (hb.ne_of_other hl hib hp) ..)
      le_rfl

@[simp] theorem hashElemKeyDestroy_links (elem : HashElem K V) :
    (hashElemKeyDestroy f h elem).links = h.links := by
  unfold hashElemKeyDestroy
  split <;> rfl

@[simp] theorem hashElemKeyDestroy_elems (elem : HashElem K V) :
    (hashElemKeyDestroy f h elem).elems = h.elems := by
  unfold hashElemKeyDestroy
  split <;> rfl

@[simp] theorem hashElemKeyDestroy_nextElem (elem : HashElem K V) :
    (hashElemKeyDestroy f h elem).nextElem = h.nextElem := by
  unfold hashElemKeyDestroy
  split <;> rfl

@[simp] theorem hashElemValueDestroy_links (elem : HashElem K V) :
    (hashElemValueDestroy f h elem).links = h.links := by
  unfold hashElemValueDestroy
  split <;> rfl

@[simp] theorem hashElemValueDestroy_elems (elem : HashElem K V) :
    (hashElemValueDestroy f h elem).elems = h.elems := by
  unfold hashElemValueDestroy
  split <;> rfl

@[simp] theorem hashElemValueDestroy_nextElem (elem : HashElem K V) :
    (hashElemValueDestroy f h elem).nextElem = h.nextElem := by
  unfold hashElemValueDestroy
  split <;> rfl

theorem Chained.destroyed (hc : Chained f h chain) (elem : HashElem K V) :
    Chained f (hashElemValueDestroy f (hashElemKeyDestroy f h elem) elem) chain := by
  intro i hi
  have hl := hc i hi
  exact hl.elsewhere (by simpa using hl.ring) (fun p _ => by simp) (by simp)

theorem Chained.free (hc : Chained f h chain) {b : ℕ} (hlt : b < f.listsSize)
    (hsplit : chain b = l₁ ++ (e, elem) :: l₂) :
    Chained f (hashElemFree f h e elem) (Function.update chain b (l₁ ++ l₂)) := by
  have hb := hc b hlt
  rw [hsplit] at hb
  have hring := hb.ring
  rw [nodes, List.map_append, List.map_cons] at hring
  have hold {p : ℕ × HashElem K V} (hp : p ∈ l₁ ++ l₂) : p ∈ l₁ ++ (e, elem) :: l₂ :=
    List.perm_middle.mem_iff.mpr (List.mem_cons_of_mem _ hp)
  have hother {p : ℕ × HashElem K V} (hp : p.1 ≠ e) :
      (hashElemFree f h e elem).elems p.1 = h.elems p.1 := by
    rw [hashElemFree]
    simp [hp]
  have hlinks : (hashElemFree f h e elem).links = h.links.unlink (.elem e) := by
    simp [hashElemFree, Links.preludeListDel]
  have hnext : (hashElemFree f h e elem).nextElem = h.nextElem := by simp [hashElemFree]
  refine hc.update ?_ fun i hi hib hl => ?_
  · exact {
      ring := by
        rw [hlinks, nodes, List.map_append]
        exact hring.unlink
      live := fun p hp => (hother (hb.ne_of_mem hp)).trans (hb.live p (hold hp))
      bucket := fun p hp => hb.bucket p (hold hp)
      fresh := fun p hp => by
        rw [hnext]
        exact hb.fresh p (hold hp)
      distinct := hb.distinct.remove
      length := by
        have hlength := hb.length
        rw [hnext]
        simp only [List.length_append, List.length_cons] at hlength ⊢
        omega }
  · have helse {y : HashNode} (hy : y ∈ HashNode.list b :: nodes (l₁ ++ (e, elem) :: l₂)) :
        y ∉ HashNode.list i :: nodes (chain i) := hb.disjoint hl (Ne.symm hib) hy
    rw [nodes, List.map_append, List.map_cons] at helse
    refine hl.elsewhere ?_ (fun p hp => hother (hb.ne_of_other hl hib hp)) hnext.ge
    rw [hlinks]
    exact hl.ring.unlink_elsewhere (helse hring.neighbours.1) (helse hring.neighbours.2)

end PreludeHash

end LibPrelude
