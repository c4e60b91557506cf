import Mathlib.Tactic.Abel
import LibPrelude.Criteria.Storage

/-! # Clones of criteria

Criteria hold references to the blocks that they release, and borrow what the values of
originals own. As long as no criteria are destroyed that others borrow from, criteria and
their clones match the same messages, and every block has the references that are left.
-/

namespace LibPrelude

open Formula

def StoredPath.holds (path : StoredPath) : Multiset ℕ :=
  path.block ::ₘ (if path.cached then 0 else ↑path.keys)

def StoredCriterionValue.holds (value : StoredCriterionValue) : Multiset ℕ :=
  value.block ::ₘ (if value.owns then ↑value.storage else 0)

/-- A value whose clone is as it should be: an object has all it requires, a list is full and has no
elements. -/
def CriterionContent.Clonable : CriterionContent → Prop
  | .value v => LibPrelude.Clonable v ∧
      ∀ cls o, v = .scalar (.class cls o) → HasType (.struct cls) o
  | _ => True

namespace StoredCriteria

def holds : StoredCriteria → Multiset ℕ
  | criterion block path value _ =>
    block ::ₘ (path.holds + value.elim 0 StoredCriterionValue.holds)
  | not block right => block ::ₘ right.holds
  | binary block _ left right => block ::ₘ (left.holds + right.holds)

/-- What criteria read and others release. -/
def borrows : StoredCriteria → List ℕ
  | criterion _ path value _ =>
    (if path.cached then path.keys else []) ++
      value.elim [] fun v => if v.owns then [] else v.storage
  | not _ right => right.borrows
  | binary _ _ left right => left.borrows ++ right.borrows

/-- No path but those of the cache has keys. -/
def Keyless : StoredCriteria → Prop
  | criterion _ path _ _ => path.cached ∨ path.keys = []
  | not _ right => right.Keyless
  | binary _ _ left right => left.Keyless ∧ right.Keyless

/-- The values of the criteria can be cloned. -/
def Clonable : StoredCriteria → Prop
  | criterion _ _ value _ => ∀ v, value = some v → v.content.Clonable
  | not _ right => right.Clonable
  | binary _ _ left right => left.Clonable ∧ right.Clonable

/-- A criterion without a value asks whether there is one. -/
def Formed : StoredCriteria → Prop
  | criterion _ _ value op => value = none → op.null
  | not _ right => right.Formed
  | binary _ _ left right => left.Formed ∧ right.Formed

/-- All that is read of criteria is there. -/
def Live (t : StoredCriteria) (held : Multiset ℕ) : Prop :=
  (∀ b ∈ t.holds, b ∈ held) ∧ ∀ b ∈ t.borrows, b ∈ held

end StoredCriteria

/-- The results of criteria for a message. Those of a list and of an object are any functions of the
elements and of the content. -/
def storedResults (pl : Platform)
    (lists : IdmefPath → List (Option StoredValue) → Operator → Except ErrorCode Bool)
    (objects : IdmefPath → Obj → Operator → Except ErrorCode Bool) (object : Obj)
    (criterion : Criterion IdmefPath CriterionContent) : Except ErrorCode Bool :=
  let results := fun value => criterionMatch pl object ⟨criterion.path, value, criterion.operator⟩
  match criterion.value with
  | none => results none
  | some (.value (.list elems _ _)) => lists criterion.path elems criterion.operator
  | some (.value (.scalar (.class _ o))) => objects criterion.path (content o) criterion.operator
  | some (.value (.scalar v)) => results (some (.value v))
  | some (.regex pattern nocase) => results (some (.regex pattern nocase))
  | some (.btime tm) => results (some (.btime tm))

def SameMatches (t u : StoredCriteria) : Prop :=
  ∀ pl lists objects object, t.formula.eval lenient (storedResults pl lists objects object) =
    u.formula.eval lenient (storedResults pl lists objects object)

section

variable {now : IdmefTime} {t u : StoredCriteria} {h h' : Blocks} {held held' rest : Multiset ℕ}
  {path : StoredPath} {value : StoredCriterionValue} {v : StoredValue} {b : ℕ}

theorem StoredCriteria.Live.mono (ht : t.Live held) (hle : ∀ b ∈ held, b ∈ held') :
    t.Live held' :=
  ⟨fun b hb => hle b (ht.1 b hb), fun b hb => hle b (ht.2 b hb)⟩

theorem StoredCriteria.Live.right (ht : (StoredCriteria.not b t).Live held) : t.Live held :=
  ⟨fun c hc => ht.1 c (Multiset.mem_cons_of_mem hc), ht.2⟩

theorem StoredCriteria.Live.parts {c : Connective}
    (ht : (StoredCriteria.binary b c t u).Live held) : t.Live held ∧ u.Live held :=
  ⟨⟨fun d hd => ht.1 d (Multiset.mem_cons_of_mem (Multiset.mem_add.mpr (.inl hd))),
      fun d hd => ht.2 d (List.mem_append_left _ hd)⟩,
    ⟨fun d hd => ht.1 d (Multiset.mem_cons_of_mem (Multiset.mem_add.mpr (.inr hd))),
      fun d hd => ht.2 d (List.mem_append_right _ hd)⟩⟩

theorem StoredCriteria.Live.root (ht : t.Live held) : t.root ∈ held := by
  refine ht.1 _ ?_
  cases t <;> exact Multiset.mem_cons_self _ _

theorem StoredCriteria.Live.reads {op : Operator} {value : Option StoredCriterionValue}
    (ht : (StoredCriteria.criterion b path value op).Live held) :
    ∀ c ∈ criterionReads b path value, c ∈ held := by
  obtain ⟨hholds, hborrows⟩ := ht
  simp only [StoredCriteria.holds, StoredPath.holds, Multiset.mem_cons, Multiset.mem_add] at hholds
  simp only [StoredCriteria.borrows, List.mem_append] at hborrows
  intro c hc
  simp only [criterionReads, List.mem_cons, List.mem_append] at hc
  rcases hc with rfl | rfl | hc | hc
  · exact hholds _ (.inl rfl)
  · exact hholds _ (.inr (.inl (.inl rfl)))
  · by_cases hcached : path.cached
    · exact hborrows c (.inl (by simpa [hcached] using hc))
    · exact hholds c (.inr (.inl (.inr (by simpa [hcached] using hc))))
  · rcases value with _ | value
    · cases hc
    · simp only [Option.elim_some, List.mem_cons] at hc hborrows hholds
      simp only [StoredCriterionValue.holds, Multiset.mem_cons] at hholds
      rcases hc with rfl | hc
      · exact hholds _ (.inr (.inr (.inl rfl)))
      · by_cases howns : value.owns
        · exact hholds c (.inr (.inr (.inr (by simpa [howns] using hc))))
        · exact hborrows c (.inr (by simpa [howns] using hc))

theorem match_live (results : Criterion IdmefPath CriterionContent → Except ErrorCode Bool)
    (ht : t.Live h.held) : t.match results h = some (t.formula.eval lenient results) := by
  have hhas {b : ℕ} (hb : b ∈ h.held) : h.has [b] := by simpa [Blocks.has] using hb
  induction t with
  | criterion b path value op =>
    rw [StoredCriteria.match, if_pos (Blocks.has_iff.mpr ht.reads)]
    rfl
  | not b right ih =>
    have hroot : h.has [b] := hhas ht.root
    rw [StoredCriteria.match, if_pos hroot, ih ht.right]
    rfl
  | binary b c left right ihl ihr =>
    have hl := ihl ht.parts.1
    have hr := ihr ht.parts.2
    have hroot : h.has [b] := hhas ht.root
    cases c
    · rw [StoredCriteria.match, if_pos hroot, hl, hr, StoredCriteria.formula,
        Connective.join, Formula.eval]
      rcases left.formula.eval lenient results with _ | _ | _ <;> rfl
    · rw [StoredCriteria.match, if_pos hroot, hl, hr, StoredCriteria.formula,
        Connective.join, Formula.eval]
      rcases left.formula.eval lenient results with _ | _ | _ <;> rfl

theorem criterionValueDestroy_live (hh : h.held = value.holds + rest) :
    ∃ h', criterionValueDestroy value h = some h' ∧ h'.held = rest := by
  rw [StoredCriterionValue.holds] at hh
  unfold criterionValueDestroy
  by_cases howns : value.owns
  · simp only [howns, if_true] at hh ⊢
    obtain ⟨h₁, hfrees, hh₁⟩ := Blocks.frees_of_held value.storage (value.block ::ₘ rest) (by
      rw [hh, Multiset.cons_add, Multiset.add_cons])
    rw [hfrees]
    exact Blocks.free_of_held _ _ hh₁
  · simp only [howns, if_false, Bool.false_eq_true] at hh ⊢
    exact Blocks.free_of_held _ _ (by rw [hh, Multiset.cons_add, zero_add])

/-- Destroying criteria gives up the references they hold, but for the keys of a cloned path. -/
theorem destroy_live (rest : Multiset ℕ) (hkeyless : t.Keyless) (hh : h.held = t.holds + rest) :
    ∃ h', t.destroy h = some h' ∧ h'.held = rest := by
  induction t generalizing h rest with
  | criterion b path value op =>
    have hpath : path.holds = {path.block} := by
      rcases hkeyless with hcached | hkeys
      · simp [StoredPath.holds, hcached]
      · simp [StoredPath.holds, hkeys]
    rw [StoredCriteria.holds, hpath] at hh
    rw [StoredCriteria.destroy, storedPathDestroy]
    obtain ⟨h₁, hfree, hh₁⟩ := Blocks.free_of_held path.block
      (value.elim 0 StoredCriterionValue.holds + b ::ₘ rest) (by
        rw [hh]
        simp only [← Multiset.singleton_add]
        abel)
    rw [hfree, Option.bind_some]
    rcases value with _ | value
    · exact Blocks.free_of_held _ _ (by simpa using hh₁)
    · obtain ⟨h₂, hdestroy, hh₂⟩ := criterionValueDestroy_live hh₁
      simp only [hdestroy, Option.bind_some]
      exact Blocks.free_of_held _ _ hh₂
  | not b right ih =>
    obtain ⟨h₁, hdestroy, hh₁⟩ := ih (b ::ₘ rest) hkeyless (by
      rw [hh, StoredCriteria.holds, Multiset.cons_add, Multiset.add_cons])
    rw [StoredCriteria.destroy, hdestroy]
    exact Blocks.free_of_held _ _ hh₁
  | binary b c left right ihl ihr =>
    obtain ⟨h₁, hl, hh₁⟩ := ihl (right.holds + b ::ₘ rest) hkeyless.1 (by
      rw [hh, StoredCriteria.holds]
      simp only [← Multiset.singleton_add]
      abel)
    obtain ⟨h₂, hr, hh₂⟩ := ihr (b ::ₘ rest) hkeyless.2 hh₁
    rw [StoredCriteria.destroy, hl, Option.bind_some, hr]
    exact Blocks.free_of_held _ _ hh₂

def SameContent (c c' : CriterionContent) : Prop :=
  ∀ pl lists objects object path op, storedResults pl lists objects object ⟨path, some c, op⟩ =
    storedResults pl lists objects object ⟨path, some c', op⟩

theorem storedListClone_absent {l : List (Option StoredValue)} (hl : ∀ v ∈ l, v = none) :
    storedListClone now l h = some (.ok l, h) := by
  induction l with
  | nil => rw [storedListClone]
  | cons v vs ih =>
    obtain ⟨rfl, hvs⟩ := List.forall_mem_cons.mp hl
    rw [storedListClone, ih hvs]
    rfl

theorem storedValueClone_clonable (hc : (CriterionContent.value v).Clonable) :
    ∃ v' blocks h', storedValueClone now v h = some (.ok (v', blocks), h') ∧
      h'.held = ↑blocks + h.held ∧ SameContent (.value v') (.value v) := by
  obtain ⟨hclonable, htype⟩ := hc
  cases v with
  | scalar v =>
    rw [storedValueClone]
    refine ⟨_, _, _, rfl, rfl, fun pl lists objects object path op => ?_⟩
    cases v with
    | «class» cls o =>
      simp only [storedResults, idmefValueTypeClone]
      rw [content_clone o _ (htype cls o rfl) hclonable]
    | _ => rfl
  | list elems listMax allocated =>
    rw [storedValueClone, storedListClone_absent hclonable.1]
    refine ⟨_, _, _, rfl, ?_, fun _ _ _ _ _ _ => rfl⟩
    rw [Blocks.held_alloc, Blocks.held_alloc, ← add_assoc, add_comm {h.alloc.2.alloc.1}]
    rfl

theorem criterionValueClone_clonable (hc : value.content.Clonable) (hblock : value.block ∈ h.held)
    (hstorage : ∀ b ∈ value.storage, b ∈ h.held) :
    ∃ value' h', criterionValueClone now value h = some (.ok value', h') ∧
      h'.held = value'.holds + h.held ∧ (value'.owns ∨ value'.storage = value.storage) ∧
      SameContent value'.content value.content := by
  have hhas : ¬ ¬ h.has [value.block] := by
    simpa [Blocks.has] using hblock
  have hreads : ¬ ¬ h.has value.storage := not_not_intro (Blocks.has_iff.mpr hstorage)
  rw [criterionValueClone, if_neg hhas]
  cases hcontent : value.content with
  | value v =>
    rw [hcontent] at hc
    obtain ⟨v', blocks, h', hclone, hheld, hsame⟩ :=
      @storedValueClone_clonable now h.alloc.2 v hc
    simp only [if_neg hreads, hclone]
    refine ⟨_, _, rfl, ?_, .inl rfl, hsame⟩
    rw [hheld, Blocks.held_alloc, StoredCriterionValue.holds, StoredCriterionValue.owns]
    simp only [if_true, ← Multiset.singleton_add]
    abel
  | regex pattern nocase =>
    refine ⟨_, _, rfl, ?_, .inr rfl, fun _ _ _ _ _ _ => rfl⟩
    rw [Blocks.held_alloc, StoredCriterionValue.holds, StoredCriterionValue.owns]
    rfl
  | btime tm =>
    refine ⟨_, _, rfl, ?_, .inr rfl, fun _ _ _ _ _ _ => rfl⟩
    rw [Blocks.held_alloc, StoredCriterionValue.holds, StoredCriterionValue.owns]
    rfl

theorem storedPathClone_live (hreads : ∀ b ∈ path.block :: path.keys, b ∈ h.held) :
    ∃ path' h', storedPathClone path h = some (path', h') ∧ path'.path = path.path ∧
      path'.cached = false ∧ h'.held = path'.holds + h.held := by
  rw [storedPathClone, if_pos (Blocks.has_iff.mpr hreads)]
  refine ⟨_, _, rfl, rfl, rfl, ?_⟩
  simp only [Blocks.held_allocs, Blocks.held_alloc, StoredPath.holds, if_false,
    Bool.false_eq_true, ← Multiset.singleton_add]
  abel

theorem newClone_ok {value : Option StoredCriterionValue} {op : Operator}
    (hop : value = none → op.null) :
    StoredCriteria.newClone path value op h =
      some (.ok (.criterion h.alloc.1 path value op), h.alloc.2) := by
  refine if_neg ?_
  rintro ⟨hnone, hnull⟩
  exact hnull (hop (Option.isNone_iff_eq_none.mp hnone))

/-- Criteria can be cloned when their values can; the clone matches the same messages, holds what
was allocated for it, and borrows from the original or where that borrows. -/
theorem clone_live (hformed : t.Formed) (hc : t.Clonable) (ht : t.Live h.held) :
    ∃ t' h', t.clone now h = some (.ok t', h') ∧ h'.held = t'.holds + h.held ∧
      (∀ b ∈ t'.borrows, b ∈ t.holds ∨ b ∈ t.borrows) ∧ t'.Formed ∧ SameMatches t' t := by
  have hhas {h : Blocks} {b : ℕ} (hb : b ∈ h.held) : ¬ ¬ h.has [b] := by
    simpa [Blocks.has] using hb
  induction t generalizing h with
  | criterion b path value op =>
    have hreads := ht.reads
    simp only [StoredCriteria.criterionReads, List.forall_mem_cons,
      List.forall_mem_append] at hreads
    obtain ⟨path', h₁, hpath, hsame, hcached, hheld⟩ := @storedPathClone_live h path
      (List.forall_mem_cons.mpr ⟨hreads.2.1, hreads.2.2.1⟩)
    rw [StoredCriteria.clone, if_neg (hhas hreads.1), hpath, Option.bind_some]
    rcases value with _ | value
    · refine ⟨_, _, newClone_ok hformed, ?_, ?_, hformed, fun _ _ _ _ => ?_⟩
      · simp only [Blocks.held_alloc, hheld, StoredCriteria.holds, Option.elim_none,
          ← Multiset.singleton_add]
        abel
      · simp [StoredCriteria.borrows, hcached]
      · simp [StoredCriteria.formula, hsame]
    · have hvalue := hreads.2.2.2
      simp only [Option.elim_some, List.forall_mem_cons] at hvalue
      obtain ⟨value', h₂, hclone, hheld', howns, hcontent⟩ :=
        @criterionValueClone_clonable now h₁ value (hc value rfl)
          (hheld ▸ Multiset.mem_add.mpr (.inr hvalue.1))
          fun b hb => hheld ▸ Multiset.mem_add.mpr (.inr (hvalue.2 b hb))
      simp only [hclone, Option.bind_some]
      have hsome : some value' = none → op.null := by
        rintro ⟨⟩
      refine ⟨_, _, newClone_ok hsome, ?_, fun b hb => ?_, hsome, fun _ _ _ _ => ?_⟩
      · simp only [Blocks.held_alloc, hheld', hheld, StoredCriteria.holds, Option.elim_some,
          ← Multiset.singleton_add]
        abel
      · simp only [StoredCriteria.borrows, hcached, if_false, Bool.false_eq_true, List.nil_append,
          Option.elim_some] at hb
        rcases howns with howns | hstorage
        · simp [howns] at hb
        · have hb : b ∈ value.storage := by
            rw [← hstorage]
            split_ifs at hb
            · cases hb
            · exact hb
          by_cases howned : value.owns
          · exact .inl (by simp [StoredCriteria.holds, StoredCriterionValue.holds, howned, hb])
          · exact .inr (by simp [StoredCriteria.borrows, howned, hb])
      · simp only [StoredCriteria.formula, hsame, Formula.eval]
        exact hcontent _ _ _ _ _ _
  | not b right ih =>
    have hmono : right.Live h.alloc.2.held := ht.right.mono fun b hb => Multiset.mem_cons_of_mem hb
    obtain ⟨right', h₁, hclone, hheld, hborrows, hright, hsame⟩ := @ih h.alloc.2 hformed hc hmono
    have hroot : ¬ ¬ h.has [b] := hhas ht.root
    rw [StoredCriteria.clone, if_neg hroot, hclone, Option.bind_some]
    refine ⟨_, _, rfl, ?_, fun b hb => ?_, hright, fun pl lists objects object => ?_⟩
    · rw [hheld, Blocks.held_alloc, StoredCriteria.holds]
      simp only [← Multiset.singleton_add]
      abel
    · exact (hborrows b hb).imp_left Multiset.mem_cons_of_mem
    · rw [StoredCriteria.formula, StoredCriteria.formula, Formula.eval, Formula.eval,
        hsame pl lists objects object]
  | binary b c left right ihl ihr =>
    have hleft : left.Live h.alloc.2.held :=
      ht.parts.1.mono fun b hb => Multiset.mem_cons_of_mem hb
    obtain ⟨left', h₁, hcloneL, hheldL, hborrowsL, hformedL, hsameL⟩ :=
      @ihl h.alloc.2 hformed.1 hc.1 hleft
    have hright : right.Live h₁.held := ht.parts.2.mono fun b hb =>
      hheldL ▸ Multiset.mem_add.mpr (.inr (Multiset.mem_cons_of_mem hb))
    obtain ⟨right', h₂, hcloneR, hheldR, hborrowsR, hformedR, hsameR⟩ :=
      @ihr h₁ hformed.2 hc.2 hright
    have hroot : ¬ ¬ h.has [b] := hhas ht.root
    rw [StoredCriteria.clone, if_neg hroot, hcloneL, Option.bind_some]
    simp only [hcloneR, Option.bind_some]
    refine ⟨_, _, rfl, ?_, fun b hb => ?_, ⟨hformedL, hformedR⟩,
      fun pl lists objects object => ?_⟩
    · rw [hheldR, hheldL, Blocks.held_alloc, StoredCriteria.holds]
      simp only [← Multiset.singleton_add]
      abel
    · rcases List.mem_append.mp hb with hb | hb
      · exact (hborrowsL b hb).imp
          (fun hb => Multiset.mem_cons_of_mem (Multiset.mem_add.mpr (.inl hb)))
          (List.mem_append_left _)
      · exact (hborrowsR b hb).imp
          (fun hb => Multiset.mem_cons_of_mem (Multiset.mem_add.mpr (.inr hb)))
          (List.mem_append_right _)
    · have hl := hsameL pl lists objects object
      have hr := hsameR pl lists objects object
      cases c
      · simp only [StoredCriteria.formula, Connective.join, Formula.eval, hl, hr]
      · simp only [StoredCriteria.formula, Connective.join, Formula.eval, hl, hr]

end

end LibPrelude
