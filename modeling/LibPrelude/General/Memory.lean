import Mathlib.Logic.Function.Basic
import LibPrelude.General.Bytes

/-! # Blocks of memory

Memory is a list of blocks that never move. A block is allocated once, and is
dead once it has been released: it can then be neither read, written nor
released again. Requests for memory are granted or refused as the environment
decides, and never beyond a limit on the size of one block.
-/

namespace LibPrelude

/-- A position inside a block. -/
structure Ptr where
  block : ℕ
  offset : ℕ
  deriving DecidableEq, Repr

/-- A block is its bytes, or nothing once it is dead. `grants` are the outcomes of the coming
requests, which are granted when it has run out; fresh bytes are `junk`. -/
structure Memory (α : Type*) where
  blocks : List (Option (List α))
  grants : List Bool
  limit : ℕ
  junk : α
  deriving DecidableEq, Repr

namespace Memory

variable {α : Type*} {m m' : Memory α} {b c n : ℕ} {p : Ptr} {x bytes : List α}

def bytesAt (m : Memory α) (b : ℕ) : Option (List α) := (m.blocks[b]?).join

def setBlock (m : Memory α) (b : ℕ) (bytes : Option (List α)) : Memory α :=
  { m with blocks := m.blocks.set b bytes }

def addBlock (m : Memory α) (bytes : List α) : Memory α :=
  { m with blocks := m.blocks ++ [some bytes] }

def request (m : Memory α) (n : ℕ) : Memory α × Bool :=
  ({ m with grants := m.grants.tail }, m.grants.headD true && decide (n ≤ m.limit))

def malloc (m : Memory α) (n : ℕ) : Memory α × Option ℕ :=
  match m.request n with
  | (m', true) => (m'.addBlock (List.replicate n m.junk), some m'.blocks.length)
  | (m', false) => (m', none)

def free (m : Memory α) (b : ℕ) : Option (Memory α) :=
  (m.bytesAt b).map fun _ => m.setBlock b none

def realloc (m : Memory α) (b n : ℕ) : Option (Memory α × Option ℕ) :=
  (m.bytesAt b).map fun bytes =>
    match m.request n with
    | (m', true) =>
      ((m'.setBlock b none).addBlock
        (bytes.take n ++ List.replicate (n - bytes.length) m.junk), some m'.blocks.length)
    | (m', false) => (m', none)

def load (m : Memory α) (p : Ptr) (n : ℕ) : Option (List α) :=
  (m.bytesAt p.block).bind fun bytes => Bytes.load bytes p.offset n

def store (m : Memory α) (p : Ptr) (x : List α) : Option (Memory α) :=
  (m.bytesAt p.block).bind fun bytes =>
    (Bytes.store bytes p.offset x).map fun bytes' => m.setBlock p.block (some bytes')

theorem lt_of_bytesAt (h : m.bytesAt b = some bytes) : b < m.blocks.length := by
  unfold bytesAt at h
  by_contra hlt
  rw [List.getElem?_eq_none (by omega)] at h
  cases h

theorem bytesAt_length (m : Memory α) : m.bytesAt m.blocks.length = none := by
  rw [bytesAt, List.getElem?_eq_none le_rfl]
  rfl

theorem bytesAt_setBlock (h : m.bytesAt b = some bytes) (o : Option (List α)) :
    (m.setBlock b o).bytesAt = Function.update m.bytesAt b o := by
  have hlt := lt_of_bytesAt h
  funext c
  by_cases hc : c = b
  · subst hc
    simp [bytesAt, setBlock, hlt]
  · rw [Function.update_of_ne hc]
    simp [bytesAt, setBlock, List.getElem?_set_ne (Ne.symm hc)]

theorem bytesAt_addBlock (m : Memory α) (x : List α) :
    (m.addBlock x).bytesAt = Function.update m.bytesAt m.blocks.length (some x) := by
  funext c
  by_cases hc : c = m.blocks.length
  · subst hc
    simp [bytesAt, addBlock]
  · rw [Function.update_of_ne hc]
    rcases Nat.lt_or_gt_of_ne hc with hlt | hgt
    · simp [bytesAt, addBlock, List.getElem?_append_left hlt]
    · simp only [bytesAt, addBlock]
      rw [List.getElem?_eq_none (by simp; omega), List.getElem?_eq_none (by omega)]

@[simp] theorem request_bytesAt (m : Memory α) (n : ℕ) : (m.request n).1.bytesAt = m.bytesAt := rfl

@[simp] theorem request_blocks (m : Memory α) (n : ℕ) : (m.request n).1.blocks = m.blocks := rfl

theorem request_granted (m : Memory α) (n : ℕ) :
    (m.request n).2 = (m.grants.headD true && decide (n ≤ m.limit)) := rfl

theorem malloc_none (h : m.malloc n = (m', none)) :
    m'.bytesAt = m.bytesAt ∧ m'.limit = m.limit ∧ m'.grants = m.grants.tail ∧
      (m.request n).2 = false := by
  unfold malloc at h
  cases hr : (m.request n).2 with
  | true =>
    rw [show m.request n = ((m.request n).1, true) from Prod.ext rfl hr] at h
    cases h
  | false =>
    rw [show m.request n = ((m.request n).1, false) from Prod.ext rfl hr] at h
    cases h
    exact ⟨rfl, rfl, rfl, rfl⟩

theorem malloc_some (h : m.malloc n = (m', some b)) :
    m.bytesAt b = none ∧ m'.bytesAt = Function.update m.bytesAt b (some (.replicate n m.junk)) ∧
      n ≤ m.limit ∧ m'.limit = m.limit ∧ m'.grants = m.grants.tail ∧
      (m.request n).2 = true := by
  unfold malloc at h
  cases hr : (m.request n).2 with
  | false =>
    rw [show m.request n = ((m.request n).1, false) from Prod.ext rfl hr] at h
    cases h
  | true =>
    rw [show m.request n = ((m.request n).1, true) from Prod.ext rfl hr] at h
    cases h
    have hn : n ≤ m.limit := by
      simp only [request, Bool.and_eq_true, decide_eq_true_eq] at hr
      exact hr.2
    exact ⟨bytesAt_length m, bytesAt_addBlock _ _, hn, rfl, rfl, rfl⟩

theorem free_some (h : m.free b = some m') :
    m'.bytesAt = Function.update m.bytesAt b none ∧ m'.limit = m.limit ∧
      m'.grants = m.grants := by
  unfold free at h
  cases hb : m.bytesAt b with
  | none => simp [hb] at h
  | some bytes =>
    simp only [hb, Option.map_some, Option.some.injEq] at h
    subst h
    exact ⟨bytesAt_setBlock hb none, rfl, rfl⟩

theorem free_of_bytesAt (h : m.bytesAt b = some bytes) : ∃ m', m.free b = some m' := by
  unfold free
  rw [h]
  exact ⟨_, rfl⟩

theorem realloc_of_bytesAt (h : m.bytesAt b = some bytes) (n : ℕ) :
    ∃ r, m.realloc b n = some r := by
  unfold realloc
  rw [h]
  exact ⟨_, rfl⟩

theorem realloc_none (h : m.realloc b n = some (m', none)) :
    m'.bytesAt = m.bytesAt ∧ m'.limit = m.limit ∧ m'.grants = m.grants.tail ∧
      (m.request n).2 = false := by
  unfold realloc at h
  cases hb : m.bytesAt b with
  | none => simp [hb] at h
  | some bytes =>
    rw [hb, Option.map_some, Option.some.injEq] at h
    cases hr : (m.request n).2 with
    | true =>
      rw [show m.request n = ((m.request n).1, true) from Prod.ext rfl hr] at h
      cases h
    | false =>
      rw [show m.request n = ((m.request n).1, false) from Prod.ext rfl hr] at h
      cases h
      exact ⟨rfl, rfl, rfl, rfl⟩

/-- The moved block is a new one, and the old one is dead. -/
theorem realloc_some (hb : m.bytesAt b = some bytes) (h : m.realloc b n = some (m', some c)) :
    m.bytesAt c = none ∧ c ≠ b ∧ n ≤ m.limit ∧ m'.limit = m.limit ∧ m'.grants = m.grants.tail ∧
      (m.request n).2 = true ∧
      m'.bytesAt = Function.update (Function.update m.bytesAt b none) c
        (some (bytes.take n ++ .replicate (n - bytes.length) m.junk)) := by
  unfold realloc at h
  rw [hb, Option.map_some, Option.some.injEq] at h
  cases hr : (m.request n).2 with
  | false =>
    rw [show m.request n = ((m.request n).1, false) from Prod.ext rfl hr] at h
    cases h
  | true =>
    rw [show m.request n = ((m.request n).1, true) from Prod.ext rfl hr] at h
    have hn : n ≤ m.limit := by
      simp only [request, Bool.and_eq_true, decide_eq_true_eq] at hr
      exact hr.2
    cases h
    have hlen : ((m.request n).1.setBlock b none).blocks.length = m.blocks.length := by
      simp [setBlock]
    refine ⟨bytesAt_length m, (lt_of_bytesAt hb).ne', hn, rfl, rfl, rfl, ?_⟩
    rw [bytesAt_addBlock, hlen, bytesAt_setBlock (m := (m.request n).1) hb]
    rfl

theorem load_of_bytesAt (h : m.bytesAt p.block = some bytes) (n : ℕ) :
    m.load p n = Bytes.load bytes p.offset n := by
  rw [load, h, Option.bind_some]

theorem store_some (h : m.bytesAt p.block = some bytes)
    (hle : p.offset + x.length ≤ bytes.length) :
    ∃ m', m.store p x = some m' ∧ m'.limit = m.limit ∧ m'.grants = m.grants ∧
      m'.bytesAt = Function.update m.bytesAt p.block
        (some (bytes.take p.offset ++ x ++ bytes.drop (p.offset + x.length))) := by
  refine ⟨m.setBlock p.block
    (some (bytes.take p.offset ++ x ++ bytes.drop (p.offset + x.length))), ?_, rfl, rfl,
    bytesAt_setBlock h _⟩
  rw [store, h, Option.bind_some, Bytes.store_eq_some hle, Option.map_some]

theorem load_eq_some (h : m.load p n = some x) :
    ∃ bytes, m.bytesAt p.block = some bytes ∧ p.offset + n ≤ bytes.length ∧ x.length = n := by
  cases hb : m.bytesAt p.block with
  | none => simp [load, hb] at h
  | some bytes =>
    rw [load_of_bytesAt hb, Bytes.load] at h
    split at h
    · cases h
      exact ⟨bytes, rfl, ‹_›, by simp; omega⟩
    · cases h

theorem load_part (h : m.load p n = some x) {i k : ℕ} (hle : i + k ≤ n) :
    ∃ y, m.load ⟨p.block, p.offset + i⟩ k = some y := by
  obtain ⟨bytes, hb, hn, -⟩ := load_eq_some h
  exact ⟨_, (load_of_bytesAt (p := ⟨p.block, p.offset + i⟩) hb k).trans
    (Bytes.load_eq_some (by simp only; omega))⟩

theorem malloc_block (h : m.malloc n = (m', some b)) : b = m.blocks.length := by
  unfold malloc at h
  split at h
  · cases h
    rename_i hr
    exact congrArg (fun r : Memory α × Bool => r.1.blocks.length) hr.symm
  · cases h

theorem load_malloc (h : m.malloc n = (m', some b)) (hp : p.block ≠ b) (k : ℕ) :
    m'.load p k = m.load p k := by
  obtain ⟨-, hbytes, -⟩ := malloc_some h
  rw [load, hbytes, Function.update_of_ne hp, load]

theorem load_malloc_store (h : m.malloc n = (m', some b)) (hx : x.length = n) :
    ∃ m₁, m'.store ⟨b, 0⟩ x = some m₁ ∧ m₁.load ⟨b, 0⟩ n = some x := by
  obtain ⟨-, hbytes, -⟩ := malloc_some h
  have hb : m'.bytesAt b = some (List.replicate n m.junk) := by
    rw [hbytes, Function.update_self]
  obtain ⟨m₁, hstore, -, -, hupdate⟩ := store_some (p := ⟨b, 0⟩) (x := x) hb (by simp [hx])
  have hload : m₁.bytesAt b = some x := by
    rw [hupdate, Function.update_self]
    simp [hx]
  refine ⟨m₁, hstore, ?_⟩
  rw [load_of_bytesAt hload, Bytes.load_eq_some (by simp [hx])]
  simp [← hx]

end Memory

end LibPrelude
