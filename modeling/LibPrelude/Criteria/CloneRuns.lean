import Mathlib.Algebra.BigOperators.Group.Multiset.Basic
import LibPrelude.Criteria.Clones

/-! # Criteria and clones over runs

The user makes criteria for paths of the cache, clones them, combines them and destroys
them, in any order. As long as only values that can be cloned are, and no criteria are
destroyed that others still borrow from or whose path has keys of its own, nothing is
released twice or lost, and clones match what the originals match.
-/

namespace LibPrelude

open Formula

/-- The blocks, the paths of the cache, and the criteria that belong to the user. -/
structure CriteriaWorld where
  blocks : Blocks
  cache : List StoredPath
  trees : Multiset StoredCriteria

inductive CriteriaCall where
  | newPath (path : IdmefPath)
  | newCriterion (path : StoredPath) (value : Option CriterionContent) (op : Operator)
  | clone (t : StoredCriteria)
  | destroy (t : StoredCriteria) (others : Multiset StoredCriteria)
  | not (t : StoredCriteria) (others : Multiset StoredCriteria)
  | join (c : Connective) (t u : StoredCriteria) (others : Multiset StoredCriteria)
  | append (c : Connective) (t u : StoredCriteria) (others : Multiset StoredCriteria)

def StoredPath.cacheHolds (path : StoredPath) : Multiset ℕ := path.block ::ₘ ↑path.keys

def heldBy (trees : Multiset StoredCriteria) : Multiset ℕ := (trees.map StoredCriteria.holds).sum

def criterionValueNew (content : CriterionContent) (h : Blocks) :
    StoredCriterionValue × Blocks :=
  let storage := h.alloc.2.allocs content.blockCount
  (⟨h.alloc.1, content, storage.1, true⟩, storage.2)

namespace CriteriaWorld

def empty : CriteriaWorld := ⟨.empty, [], 0⟩

def cacheHeld (w : CriteriaWorld) : Multiset ℕ := (w.cache.map StoredPath.cacheHolds).sum

def newPath (w : CriteriaWorld) (path : IdmefPath) : CriteriaWorld :=
  let keys := w.blocks.alloc.2.allocs (keyCount path)
  { w with blocks := keys.2, cache := ⟨w.blocks.alloc.1, keys.1, path, true⟩ :: w.cache }

def newCriterion (w : CriteriaWorld) (path : StoredPath) (content : Option CriterionContent)
    (op : Operator) : Option CriteriaWorld :=
  (w.blocks.ref path.block).map fun h =>
    match content with
    | none => ⟨h.alloc.2, w.cache, .criterion h.alloc.1 path none op ::ₘ w.trees⟩
    | some content =>
      let value := criterionValueNew content h
      ⟨value.2.alloc.2, w.cache, .criterion value.2.alloc.1 path (some value.1) op ::ₘ w.trees⟩

def cloned (w : CriteriaWorld) : Except ErrorCode StoredCriteria × Blocks → Ret × CriteriaWorld
  | (.ok t, h) => (.ok (), ⟨h, w.cache, t ::ₘ w.trees⟩)
  | (.error err, h) => (.error err, ⟨h, w.cache, w.trees⟩)

def plant (w : CriteriaWorld) (node : ℕ → StoredCriteria) (others : Multiset StoredCriteria) :
    CriteriaWorld :=
  ⟨w.blocks.alloc.2, w.cache, node w.blocks.alloc.1 ::ₘ others⟩

end CriteriaWorld

/-- The outcome of a call, which is none when it uses storage that is not there. -/
inductive Calls (now : IdmefTime) (w : CriteriaWorld) :
    CriteriaCall → Option (Ret × CriteriaWorld) → Prop
  | newPath (path : IdmefPath) : Calls now w (.newPath path) (some (.ok (), w.newPath path))
  | newCriterion {path : StoredPath} {value : Option CriterionContent} {op : Operator} :
      path ∈ w.cache → op.isCriterion → (value = none → op.null) →
      Calls now w (.newCriterion path value op)
        ((w.newCriterion path value op).map fun w => (.ok (), w))
  | clone {t : StoredCriteria} : t ∈ w.trees →
      Calls now w (.clone t) ((t.clone now w.blocks).map w.cloned)
  | destroy {t : StoredCriteria} {others : Multiset StoredCriteria} : w.trees = t ::ₘ others →
      Calls now w (.destroy t others)
        ((t.destroy w.blocks).map fun h => (.ok (), ⟨h, w.cache, others⟩))
  | not {t : StoredCriteria} {others : Multiset StoredCriteria} : w.trees = t ::ₘ others →
      Calls now w (.not t others) (some (.ok (), w.plant (fun b => .not b t) others))
  | join (c : Connective) {t u : StoredCriteria} {others : Multiset StoredCriteria} :
      w.trees = t ::ₘ u ::ₘ others →
      Calls now w (.join c t u others) (some (.ok (), w.plant (fun b => .binary b c t u) others))
  | append (c : Connective) {t u : StoredCriteria} {others : Multiset StoredCriteria} :
      w.trees = t ::ₘ u ::ₘ others →
      Calls now w (.append c t u others)
        (some (.ok (), w.plant (fun b => .binary t.root c (t.moveTo b) u) others))

/-- The worlds that runs of such calls lead to. -/
inductive CriteriaRun (now : IdmefTime) (allowed : CriteriaWorld → CriteriaCall → Prop) :
    CriteriaWorld → Prop
  | start : CriteriaRun now allowed .empty
  | step {w w' : CriteriaWorld} {call : CriteriaCall} {ret : Ret} : CriteriaRun now allowed w →
      allowed w call → Calls now w call (some (ret, w')) → CriteriaRun now allowed w'

/-- Only values that can be cloned are, and no criteria are destroyed that others borrow from or
whose path has keys that no one else releases. -/
def Careful (w : CriteriaWorld) : CriteriaCall → Prop
  | .clone t => t.Clonable
  | .destroy t others =>
    t.Keyless ∧ ∀ u ∈ others, ∀ b ∈ u.borrows, b ∈ w.cacheHeld + heldBy others
  | _ => True

/-- All criteria match what their formulas say, clones are made and match what their originals
match, calls succeed without a use of storage that is not there, and the blocks that are
there are those of the cache and of the criteria. -/
def Independent (now : IdmefTime) (allowed : CriteriaWorld → CriteriaCall → Prop)
    (w : CriteriaWorld) : Prop :=
  (∀ t ∈ w.trees, ∀ results, t.match results w.blocks = some (t.formula.eval lenient results)) ∧
  (∀ t ∈ w.trees, allowed w (.clone t) →
    ∃ t' h, t.clone now w.blocks = some (.ok t', h) ∧ SameMatches t' t) ∧
  (∀ call out, allowed w call → Calls now w call out → ∃ w', out = some (.ok (), w')) ∧
  w.blocks.held = w.cacheHeld + heldBy w.trees

/-- The blocks that are there are held, and what is borrowed is held. -/
structure Accounted (w : CriteriaWorld) : Prop where
  held : w.blocks.held = w.cacheHeld + heldBy w.trees
  borrowed : ∀ t ∈ w.trees, ∀ b ∈ t.borrows, b ∈ w.cacheHeld + heldBy w.trees
  cached : ∀ path ∈ w.cache, path.cached
  formed : ∀ t ∈ w.trees, t.Formed

section

variable {now : IdmefTime} {w w' : CriteriaWorld} {t u : StoredCriteria} {b : ℕ}
  {others : Multiset StoredCriteria} {call : CriteriaCall} {out : Option (Ret × CriteriaWorld)}

theorem heldBy_cons (t : StoredCriteria) (trees : Multiset StoredCriteria) :
    heldBy (t ::ₘ trees) = t.holds + heldBy trees := by
  simp [heldBy]

theorem mem_heldBy (ht : t ∈ others) (hb : b ∈ t.holds) : b ∈ heldBy others := by
  obtain ⟨rest, rfl⟩ := Multiset.exists_cons_of_mem ht
  rw [heldBy_cons]
  exact Multiset.mem_add.mpr (.inl hb)

theorem moveTo_holds (t : StoredCriteria) (b : ℕ) :
    t.root ::ₘ (t.moveTo b).holds = b ::ₘ t.holds := by
  cases t <;> exact Multiset.cons_swap _ _ _

theorem moveTo_borrows (t : StoredCriteria) (b : ℕ) : (t.moveTo b).borrows = t.borrows := by
  cases t <;> rfl

theorem moveTo_formed (t : StoredCriteria) (b : ℕ) : (t.moveTo b).Formed ↔ t.Formed := by
  cases t <;> rfl

theorem Accounted.live (h : Accounted w) (ht : t ∈ w.trees) : t.Live w.blocks.held := by
  rw [h.held]
  exact ⟨fun b hb => Multiset.mem_add.mpr (.inr (mem_heldBy ht hb)), h.borrowed t ht⟩

theorem accounted_empty : Accounted .empty :=
  ⟨rfl, fun t ht => absurd ht (Multiset.notMem_zero t), fun _ hp => absurd hp List.not_mem_nil,
    fun t ht => absurd ht (Multiset.notMem_zero t)⟩

theorem Accounted.newPath (h : Accounted w) (path : IdmefPath) : Accounted (w.newPath path) := by
  have hcache : (w.newPath path).cacheHeld = {w.blocks.alloc.1} +
      ↑(w.blocks.alloc.2.allocs (keyCount path)).1 + w.cacheHeld := by
    simp [CriteriaWorld.cacheHeld, CriteriaWorld.newPath, StoredPath.cacheHolds]
  refine ⟨?_, fun t ht b hb => ?_, fun p hp => ?_, h.formed⟩
  · rw [hcache, CriteriaWorld.newPath]
    simp only [Blocks.held_allocs, Blocks.held_alloc, h.held]
    abel
  · rw [hcache, add_assoc]
    exact Multiset.mem_add.mpr (.inr (h.borrowed t ht b hb))
  · rcases List.mem_cons.mp hp with rfl | hp
    · rfl
    · exact h.cached p hp

theorem Accounted.added (h : Accounted w) {blocks : Blocks}
    (hheld : blocks.held = t.holds + w.blocks.held) (hformed : t.Formed)
    (hborrows : ∀ b ∈ t.borrows, b ∈ w.cacheHeld + heldBy w.trees) :
    Accounted ⟨blocks, w.cache, t ::ₘ w.trees⟩ := by
  have hle {b : ℕ} (hb : b ∈ w.cacheHeld + heldBy w.trees) :
      b ∈ w.cacheHeld + heldBy (t ::ₘ w.trees) := by
    rw [heldBy_cons]
    simp only [Multiset.mem_add] at hb ⊢
    tauto
  refine ⟨?_, fun u hu b hb => ?_, h.cached, fun u hu => ?_⟩
  · change blocks.held = w.cacheHeld + heldBy (t ::ₘ w.trees)
    rw [hheld, h.held, heldBy_cons]
    abel
  · rcases Multiset.mem_cons.mp hu with rfl | hu
    · exact hle (hborrows b hb)
    · exact hle (h.borrowed u hu b hb)
  · rcases Multiset.mem_cons.mp hu with rfl | hu
    · exact hformed
    · exact h.formed u hu

theorem Accounted.newCriterion (h : Accounted w) {path : StoredPath}
    {content : Option CriterionContent} {op : Operator} (hpath : path ∈ w.cache)
    (hop : content = none → op.null) :
    ∃ w', w.newCriterion path content op = some w' ∧ Accounted w' := by
  have hcached := h.cached path hpath
  have hcache {b : ℕ} (hb : b ∈ path.cacheHolds) : b ∈ w.cacheHeld := by
    obtain ⟨before, after, hw⟩ := List.append_of_mem hpath
    simp [CriteriaWorld.cacheHeld, hw, hb]
  have hblock : path.block ∈ w.blocks.held := by
    rw [h.held]
    exact Multiset.mem_add.mpr (.inl (hcache (Multiset.mem_cons_self _ _)))
  have hkeys : ∀ b ∈ path.keys, b ∈ w.cacheHeld + heldBy w.trees := fun b hb =>
    Multiset.mem_add.mpr (.inl (hcache (Multiset.mem_cons_of_mem (Multiset.mem_coe.mpr hb))))
  rw [CriteriaWorld.newCriterion, Blocks.ref_of_mem hblock, Option.map_some]
  refine ⟨_, rfl, ?_⟩
  rcases content with _ | content
  · refine h.added ?_ (fun _ => hop rfl) ?_
    · simp only [StoredCriteria.holds, StoredPath.holds, hcached, if_true, Option.elim_none,
        Blocks.held_alloc, ← Multiset.singleton_add]
      abel
    · simpa [StoredCriteria.borrows, hcached] using hkeys
  · have howns : (criterionValueNew content
        ⟨w.blocks.next, path.block ::ₘ w.blocks.held⟩).1.owns := by
      cases content <;> rfl
    refine h.added ?_ (fun hnone => absurd hnone (Option.some_ne_none _)) ?_
    · simp only [StoredCriteria.holds, StoredPath.holds, hcached, if_true, Option.elim_some,
        StoredCriterionValue.holds, howns]
      simp only [criterionValueNew, Blocks.held_alloc, Blocks.held_allocs,
        ← Multiset.singleton_add]
      abel
    · simpa [StoredCriteria.borrows, hcached, howns] using hkeys

theorem Accounted.plant (h : Accounted w) {node : ℕ → StoredCriteria}
    (hheld : heldBy w.trees + {w.blocks.alloc.1} =
      (node w.blocks.alloc.1).holds + heldBy others)
    (hborrows : ∀ b ∈ (node w.blocks.alloc.1).borrows, ∃ t ∈ w.trees, b ∈ t.borrows)
    (hformed : (node w.blocks.alloc.1).Formed) (hothers : ∀ t ∈ others, t ∈ w.trees) :
    Accounted (w.plant node others) := by
  have hall : w.cacheHeld + heldBy (node w.blocks.alloc.1 ::ₘ others) =
      {w.blocks.alloc.1} + (w.cacheHeld + heldBy w.trees) := by
    rw [heldBy_cons, ← hheld]
    abel
  have hle {t : StoredCriteria} {b : ℕ} (ht : t ∈ w.trees) (hb : b ∈ t.borrows) :
      b ∈ w.cacheHeld + heldBy (node w.blocks.alloc.1 ::ₘ others) := by
    rw [hall]
    exact Multiset.mem_add.mpr (.inr (h.borrowed t ht b hb))
  refine ⟨?_, fun t ht b hb => ?_, h.cached, fun t ht => ?_⟩
  · change w.blocks.alloc.2.held = w.cacheHeld + heldBy (node w.blocks.alloc.1 ::ₘ others)
    rw [hall, Blocks.held_alloc, h.held]
  · rcases Multiset.mem_cons.mp ht with rfl | ht
    · obtain ⟨t, ht, hb⟩ := hborrows b hb
      exact hle ht hb
    · exact hle (hothers t ht) hb
  · rcases Multiset.mem_cons.mp ht with rfl | ht
    · exact hformed
    · exact h.formed t (hothers t ht)

/-- A careful call succeeds, and the references are accounted for after it. -/
theorem Accounted.step (h : Accounted w) (hcareful : Careful w call)
    (hcall : Calls now w call out) :
    ∃ w', out = some (.ok (), w') ∧ Accounted w' := by
  cases hcall with
  | newPath path => exact ⟨_, rfl, h.newPath path⟩
  | newCriterion hpath _ hop =>
    obtain ⟨w', hw', haccounted⟩ := h.newCriterion hpath hop
    exact ⟨w', by rw [hw']; rfl, haccounted⟩
  | @clone t ht =>
    obtain ⟨t', blocks, hclone, hheld, hborrows, hformed, -⟩ :=
      clone_live (h.formed t ht) hcareful (h.live ht)
    refine ⟨_, by rw [hclone]; rfl, h.added hheld hformed fun b hb => ?_⟩
    rcases hborrows b hb with hb | hb
    · exact Multiset.mem_add.mpr (.inr (mem_heldBy ht hb))
    · exact h.borrowed t ht b hb
  | @destroy t others htrees =>
    have hheld : w.blocks.held = t.holds + (w.cacheHeld + heldBy others) := by
      rw [h.held, htrees, heldBy_cons]
      abel
    obtain ⟨blocks, hdestroy, hblocks⟩ := destroy_live _ hcareful.1 hheld
    refine ⟨⟨blocks, w.cache, others⟩, by rw [hdestroy]; rfl, hblocks, hcareful.2, h.cached,
      fun u hu => ?_⟩
    exact h.formed u (htrees ▸ Multiset.mem_cons_of_mem hu)
  | @not t others htrees =>
    have ht : t ∈ w.trees := htrees ▸ Multiset.mem_cons_self _ _
    refine ⟨_, rfl, h.plant ?_ (fun b hb => ⟨t, ht, hb⟩) (h.formed t ht) fun u hu => ?_⟩
    · rw [htrees, heldBy_cons, StoredCriteria.holds, ← Multiset.singleton_add]
      abel
    · exact htrees ▸ Multiset.mem_cons_of_mem hu
  | @join c t u others htrees =>
    have ht : t ∈ w.trees := htrees ▸ Multiset.mem_cons_self _ _
    have hu : u ∈ w.trees := htrees ▸ Multiset.mem_cons_of_mem (Multiset.mem_cons_self _ _)
    refine ⟨_, rfl, h.plant ?_ (fun b hb => ?_) ⟨h.formed t ht, h.formed u hu⟩ fun s hs => ?_⟩
    · rw [htrees, heldBy_cons, heldBy_cons, StoredCriteria.holds, ← Multiset.singleton_add]
      abel
    · rcases List.mem_append.mp hb with hb | hb
      · exact ⟨t, ht, hb⟩
      · exact ⟨u, hu, hb⟩
    · exact htrees ▸ Multiset.mem_cons_of_mem (Multiset.mem_cons_of_mem hs)
  | @append c t u others htrees =>
    have ht : t ∈ w.trees := htrees ▸ Multiset.mem_cons_self _ _
    have hu : u ∈ w.trees := htrees ▸ Multiset.mem_cons_of_mem (Multiset.mem_cons_self _ _)
    refine ⟨_, rfl, h.plant ?_ (fun b hb => ?_)
      ⟨(moveTo_formed t _).mpr (h.formed t ht), h.formed u hu⟩ fun s hs => ?_⟩
    · rw [htrees, heldBy_cons, heldBy_cons, StoredCriteria.holds, ← Multiset.cons_add,
        moveTo_holds, ← Multiset.singleton_add]
      abel
    · rcases List.mem_append.mp hb with hb | hb
      · exact ⟨t, ht, moveTo_borrows t _ ▸ hb⟩
      · exact ⟨u, hu, hb⟩
    · exact htrees ▸ Multiset.mem_cons_of_mem (Multiset.mem_cons_of_mem hs)

theorem CriteriaRun.accounted (h : CriteriaRun now Careful w) : Accounted w := by
  induction h with
  | start => exact accounted_empty
  | step _ hcareful hcall ih =>
    obtain ⟨w', hout, haccounted⟩ := ih.step hcareful hcall
    cases hout
    exact haccounted

end

/-- In every run of careful calls, criteria and their clones are independent. -/
theorem criteria_clones_independent (now : IdmefTime) (w : CriteriaWorld)
    (h : CriteriaRun now Careful w) : Independent now Careful w := by
  have haccounted := h.accounted
  refine ⟨fun t ht results => match_live results (haccounted.live ht), fun t ht hclonable => ?_,
    fun call out hcareful hcall => ?_, haccounted.held⟩
  · obtain ⟨t', blocks, hclone, -, -, -, hsame⟩ :=
      @clone_live now t w.blocks (haccounted.formed t ht) hclonable (haccounted.live ht)
    exact ⟨t', blocks, hclone, hsame⟩
  · obtain ⟨w', hout, -⟩ := haccounted.step hcareful hcall
    exact ⟨w', hout⟩

def versionPath : IdmefPath where
  topClass := .message
  elements := [⟨indexForbidden, none, 0⟩]
  valid := ⟨.inr rfl, rfl⟩

def versionRegex (block value regex path : ℕ) (valueNeedFree cached : Bool) : StoredCriteria :=
  .criterion block ⟨path, [], versionPath, cached⟩
    (some ⟨value, .regex (ascii "1") false, [regex, regex + 1, regex + 2], valueNeedFree⟩)
    { regex := true }

/-- The criterion `version ~ 1`. -/
def regexWorld : CriteriaWorld where
  blocks := ⟨6, {5, 2, 3, 4, 1, 0, 0}⟩
  cache := [⟨0, [], versionPath, true⟩]
  trees := {versionRegex 5 1 2 0 true true}

def regexAndClone : CriteriaWorld where
  blocks := ⟨9, {8, 7, 6, 5, 2, 3, 4, 1, 0, 0}⟩
  cache := [⟨0, [], versionPath, true⟩]
  trees := {versionRegex 8 7 2 6 false false, versionRegex 5 1 2 0 true true}

def cloneAlone : CriteriaWorld where
  blocks := ⟨9, {8, 7, 6, 0}⟩
  cache := [⟨0, [], versionPath, true⟩]
  trees := {versionRegex 8 7 2 6 false false}

section

variable {now : IdmefTime} {allowed : CriteriaWorld → CriteriaCall → Prop}

theorem regexAndClone_run (hallowed : ∀ w call, Careful w call → allowed w call) :
    CriteriaRun now allowed regexAndClone := by
  have hpath : CriteriaRun now allowed (CriteriaWorld.empty.newPath versionPath) :=
    .step .start (hallowed _ (.newPath versionPath) trivial) (.newPath versionPath)
  have hnew : Calls now (CriteriaWorld.empty.newPath versionPath)
      (.newCriterion ⟨0, [], versionPath, true⟩ (some (.regex (ascii "1") false)) { regex := true })
      (some (.ok (), regexWorld)) := .newCriterion List.mem_cons_self rfl nofun
  have hclone : Calls now regexWorld (.clone (versionRegex 5 1 2 0 true true))
      (some (.ok (), regexAndClone)) := .clone (Multiset.mem_singleton_self _)
  refine .step (.step hpath (hallowed _ _ ?_) hnew) (hallowed _ _ ?_) hclone
  · trivial
  · rintro _ ⟨⟩
    trivial

theorem cloneAlone_run : CriteriaRun now (fun _ _ => True) cloneAlone := by
  have htrees : regexAndClone.trees =
      versionRegex 5 1 2 0 true true ::ₘ {versionRegex 8 7 2 6 false false} :=
    Multiset.cons_swap (versionRegex 8 7 2 6 false false) (versionRegex 5 1 2 0 true true) 0
  have hdestroy : Calls now regexAndClone
      (.destroy (versionRegex 5 1 2 0 true true) {versionRegex 8 7 2 6 false false})
      (some (.ok (), cloneAlone)) := .destroy htrees
  exact .step (regexAndClone_run fun _ _ _ => trivial) trivial hdestroy

end

theorem criteria_clones_independent_regex : Independent idmefTimeNew Careful regexAndClone :=
  criteria_clones_independent idmefTimeNew regexAndClone (regexAndClone_run fun _ _ h => h)

/-- The clone of a regular expression reads what was released with the original. -/
theorem criteria_clone_dangles : ¬ ∀ w, CriteriaRun idmefTimeNew (fun _ _ => True) w →
    Independent idmefTimeNew (fun _ _ => True) w := by
  intro h
  have hmatch := (h cloneAlone cloneAlone_run).1 _ (Multiset.mem_singleton_self _)
    (fun _ => .ok true)
  cases hmatch

end LibPrelude
