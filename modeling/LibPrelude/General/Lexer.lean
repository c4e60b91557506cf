import Mathlib.Data.List.TakeWhile

/-! # Scanners made from regular expressions

A regular expression is read by its derivatives. A scanner takes the rule that
matches the longest prefix of its input, the first one listed if there are several,
and hands the prefix to the action of the rule, which may change the rules in use.
-/

inductive Rx (κ : Type*) where
  | fail
  | empty
  | set (c : κ)
  | seq (r s : Rx κ)
  | alt (r s : Rx κ)
  | star (r : Rx κ)
  deriving DecidableEq

namespace Rx

variable {κ β : Type*}

def plus (r : Rx κ) : Rx κ := seq r (star r)

def opt (r : Rx κ) : Rx κ := alt r empty

inductive Matches (mem : κ → β → Bool) : Rx κ → List β → Prop
  | empty : Matches mem empty []
  | set {c : κ} {b : β} : mem c b → Matches mem (set c) [b]
  | seq {r s : Rx κ} {v w : List β} :
      Matches mem r v → Matches mem s w → Matches mem (seq r s) (v ++ w)
  | left {r s : Rx κ} {w : List β} : Matches mem r w → Matches mem (alt r s) w
  | right {r s : Rx κ} {w : List β} : Matches mem s w → Matches mem (alt r s) w
  | nil {r : Rx κ} : Matches mem (star r) []
  | cons {r : Rx κ} {v w : List β} :
      Matches mem r v → Matches mem (star r) w → Matches mem (star r) (v ++ w)

@[simp] def nullable : Rx κ → Bool
  | fail => false
  | empty => true
  | set _ => false
  | seq r s => nullable r && nullable s
  | alt r s => nullable r || nullable s
  | star _ => true

@[simp] def isFail : Rx κ → Bool
  | fail => true
  | _ => false

/-- Whether an expression is among the alternatives of another. -/
def hasAlt [DecidableEq κ] (s : Rx κ) : Rx κ → Bool
  | alt t u => hasAlt s t || hasAlt s u
  | r => r = s

/-- Nothing but the empty word matches. -/
@[simp] def isDone : Rx κ → Bool
  | fail => true
  | empty => true
  | _ => false

/-- The classes that occur. -/
@[simp] def classes : Rx κ → List κ
  | fail => []
  | empty => []
  | set c => [c]
  | seq r s => classes r ++ classes s
  | alt r s => classes r ++ classes s
  | star r => classes r

def firsts : Rx κ → List κ
  | fail => []
  | empty => []
  | set c => [c]
  | seq r s => if r.nullable then firsts r ++ firsts s else firsts r
  | alt r s => firsts r ++ firsts s
  | star r => firsts r

/-- No word has the symbol in it. -/
@[simp] def avoids (mem : κ → β → Bool) (b : β) : Rx κ → Bool
  | fail => true
  | empty => true
  | set c => !mem c b
  | seq r s => avoids mem b r && avoids mem b s
  | alt r s => avoids mem b r && avoids mem b s
  | star r => avoids mem b r

def mkSeq : Rx κ → Rx κ → Rx κ
  | fail, _ => fail
  | empty, s => s
  | r, s => seq r s

def mkAlt [DecidableEq κ] (r s : Rx κ) : Rx κ :=
  if r.isFail then s else if s.isFail ∨ hasAlt s r then r else alt r s

section

variable [DecidableEq κ] (mem : κ → β → Bool)

/-- What remains to be matched after a symbol. -/
@[simp] def deriv (b : β) : Rx κ → Rx κ
  | fail => fail
  | empty => fail
  | set c => if mem c b then empty else fail
  | seq r s =>
    if r.nullable then mkAlt (mkSeq (deriv b r) s) (deriv b s) else mkSeq (deriv b r) s
  | alt r s => mkAlt (deriv b r) (deriv b s)
  | star r => mkSeq (deriv b r) (star r)

def derivs (r : Rx κ) (w : List β) : Rx κ := w.foldl (fun r b => deriv mem b r) r

/-- The length of the longest prefix that matches. -/
@[simp] def longest : Rx κ → List β → Option ℕ
  | r, [] => if r.nullable then some 0 else none
  | r, b :: bs =>
    if r.isFail then none
    else
      match longest (deriv mem b r) bs with
      | some n => some (n + 1)
      | none => if r.nullable then some 0 else none

end

variable {mem : κ → β → Bool} {r s : Rx κ} {b : β} {v w : List β} {c : κ}

@[simp] theorem not_matches_fail : ¬ Matches mem fail w := nofun

@[simp] theorem matches_empty : Matches mem empty w ↔ w = [] := by
  constructor
  · intro h
    cases h
    rfl
  · rintro rfl
    exact .empty

theorem matches_set : Matches mem (set c) w ↔ ∃ b, mem c b ∧ w = [b] := by
  constructor
  · intro h
    cases h with
    | set hb => exact ⟨_, hb, rfl⟩
  · rintro ⟨b, hb, rfl⟩
    exact .set hb

theorem matches_seq :
    Matches mem (seq r s) w ↔ ∃ u v, w = u ++ v ∧ Matches mem r u ∧ Matches mem s v := by
  constructor
  · intro h
    cases h with
    | seq hr hs => exact ⟨_, _, rfl, hr, hs⟩
  · rintro ⟨u, v, rfl, hr, hs⟩
    exact .seq hr hs

theorem matches_alt : Matches mem (alt r s) w ↔ Matches mem r w ∨ Matches mem s w := by
  constructor
  · intro h
    cases h with
    | left h => exact .inl h
    | right h => exact .inr h
  · rintro (h | h)
    · exact .left h
    · exact .right h

theorem matches_star_cons : Matches mem (star r) (b :: w) ↔
    ∃ u v, w = u ++ v ∧ Matches mem r (b :: u) ∧ Matches mem (star r) v := by
  constructor
  · intro h
    generalize hs : star r = s at h
    generalize hw : b :: w = x at h
    induction h with
    | @cons r' u v hr hrest _ ih =>
      cases hs
      cases u with
      | nil => exact ih rfl hw
      | cons b' u =>
        obtain ⟨rfl, rfl⟩ := List.cons.inj hw
        exact ⟨u, v, rfl, hr, hrest⟩
    | nil => cases hw
    | _ => cases hs
  · rintro ⟨u, v, rfl, hr, hv⟩
    exact .cons hr hv

theorem nullable_iff : r.nullable ↔ Matches mem r [] := by
  induction r with
  | fail => simp [nullable]
  | empty => simp [nullable]
  | set c => simp [nullable, matches_set]
  | seq r s ihr ihs =>
    rw [nullable, Bool.and_eq_true, ihr, ihs, matches_seq]
    constructor
    · rintro ⟨hr, hs⟩
      exact ⟨[], [], rfl, hr, hs⟩
    · rintro ⟨u, v, huv, hr, hs⟩
      obtain ⟨rfl, rfl⟩ := List.append_eq_nil_iff.mp huv.symm
      exact ⟨hr, hs⟩
  | alt r s ihr ihs => simp [nullable, matches_alt, ihr, ihs]
  | star r _ => simp [nullable, Matches.nil]

theorem isFail_iff : r.isFail ↔ r = fail := by
  cases r <;> simp [isFail]

theorem matches_mkSeq : Matches mem (mkSeq r s) w ↔ Matches mem (seq r s) w := by
  cases r with
  | fail => simp [mkSeq, matches_seq]
  | empty =>
    rw [mkSeq, matches_seq]
    constructor
    · intro h
      exact ⟨[], w, rfl, .empty, h⟩
    · rintro ⟨u, v, rfl, hu, hv⟩
      rw [matches_empty.mp hu]
      exact hv
  | _ => rfl

theorem matches_of_hasAlt [DecidableEq κ] (h : hasAlt s r) (hs : Matches mem s w) :
    Matches mem r w := by
  induction r with
  | alt t u iht ihu =>
    simp only [hasAlt, Bool.or_eq_true] at h
    rcases h with h | h
    · exact .left (iht h)
    · exact .right (ihu h)
  | _ =>
    simp only [hasAlt, decide_eq_true_eq] at h
    rw [h]
    exact hs

theorem matches_mkAlt [DecidableEq κ] :
    Matches mem (mkAlt r s) w ↔ Matches mem r w ∨ Matches mem s w := by
  unfold mkAlt
  split_ifs with hr hs
  · simp [isFail_iff.mp hr]
  · rcases hs with hs | hs
    · simp [isFail_iff.mp hs]
    · exact ⟨.inl, fun h => h.elim id (matches_of_hasAlt hs)⟩
  · exact matches_alt

/-- The derivative matches the rests of the words that start with the symbol. -/
theorem matches_deriv [DecidableEq κ] :
    Matches mem (deriv mem b r) w ↔ Matches mem r (b :: w) := by
  induction r generalizing w with
  | fail => simp [deriv]
  | empty => simp [deriv]
  | set c =>
    rw [deriv, matches_set]
    split_ifs with hb
    · rw [matches_empty]
      constructor
      · rintro rfl
        exact ⟨b, hb, rfl⟩
      · rintro ⟨b', -, heq⟩
        exact (List.cons.inj heq).2
    · constructor
      · exact fun h => absurd h not_matches_fail
      · rintro ⟨b', hb', heq⟩
        rw [(List.cons.inj heq).1] at hb
        exact absurd hb' hb
  | seq r s ihr ihs =>
    have hsplit : Matches mem (seq r s) (b :: w) ↔
        (∃ u v, w = u ++ v ∧ Matches mem r (b :: u) ∧ Matches mem s v) ∨
          r.nullable ∧ Matches mem s (b :: w) := by
      rw [matches_seq, nullable_iff]
      constructor
      · rintro ⟨u, v, huv, hr, hs⟩
        cases u with
        | nil => exact .inr ⟨hr, huv ▸ hs⟩
        | cons b' u =>
          obtain ⟨rfl, rfl⟩ := List.cons.inj huv
          exact .inl ⟨u, v, rfl, hr, hs⟩
      · rintro (⟨u, v, rfl, hr, hs⟩ | ⟨hr, hs⟩)
        · exact ⟨b :: u, v, rfl, hr, hs⟩
        · exact ⟨[], b :: w, rfl, hr, hs⟩
    rw [hsplit, deriv]
    split_ifs with hn
    · simp only [matches_mkAlt, matches_mkSeq, matches_seq, ihr, ihs, hn, true_and]
    · simp only [matches_mkSeq, matches_seq, ihr, hn, Bool.false_eq_true, false_and, or_false]
  | alt r s ihr ihs => simp [deriv, matches_mkAlt, matches_alt, ihr, ihs]
  | star r ih =>
    rw [deriv, matches_mkSeq, matches_seq, matches_star_cons]
    simp only [ih]

theorem not_matches_of_deriv [DecidableEq κ] (h : (deriv mem b r).isFail) :
    ¬ Matches mem r (b :: w) := by
  rw [← matches_deriv, isFail_iff.mp h]
  exact not_matches_fail

theorem first_of_matches (h : Matches mem r w) (hw : w = b :: v) :
    ∃ c ∈ r.firsts, mem c b := by
  induction h generalizing v with
  | empty => cases hw
  | set hc =>
    obtain ⟨rfl, -⟩ := List.cons.inj hw
    exact ⟨_, List.mem_singleton_self _, hc⟩
  | @seq r s u w hr hs ihr ihs =>
    rw [firsts]
    cases u with
    | nil =>
      obtain ⟨c, hc, hb⟩ := ihs hw
      exact ⟨c, by rw [if_pos (nullable_iff.mpr hr)]; exact List.mem_append_right _ hc, hb⟩
    | cons b' u =>
      obtain ⟨rfl, -⟩ := List.cons.inj hw
      obtain ⟨c, hc, hb⟩ := ihr rfl
      exact ⟨c, by split_ifs <;> simp [hc], hb⟩
  | left _ ih =>
    obtain ⟨c, hc, hb⟩ := ih hw
    exact ⟨c, List.mem_append_left _ hc, hb⟩
  | right _ ih =>
    obtain ⟨c, hc, hb⟩ := ih hw
    exact ⟨c, List.mem_append_right _ hc, hb⟩
  | nil => cases hw
  | @cons r u w hr hs ihr ihs =>
    cases u with
    | nil => exact ihs hw
    | cons b' u =>
      obtain ⟨rfl, -⟩ := List.cons.inj hw
      exact ihr rfl

theorem not_matches_done (h : r.isDone) : ¬ Matches mem r (b :: w) := by
  cases r with
  | fail => exact not_matches_fail
  | empty => simp
  | _ => cases h

theorem matches_derivs [DecidableEq κ] :
    Matches mem (derivs mem r v) w ↔ Matches mem r (v ++ w) := by
  induction v generalizing r with
  | nil => rfl
  | cons b v ih => exact ih.trans matches_deriv

theorem matches_iff_nullable [DecidableEq κ] : Matches mem r w ↔ (derivs mem r w).nullable := by
  rw [@nullable_iff _ _ mem, matches_derivs, List.append_nil]

theorem not_mem_of_avoids (h : avoids mem b r) (hw : Matches mem r w) : b ∉ w := by
  induction hw with
  | empty => exact List.not_mem_nil
  | @set c b' hb =>
    intro hmem
    rw [List.mem_singleton.mp hmem] at h
    simp [avoids, hb] at h
  | seq _ _ ihr ihs =>
    simp only [avoids, Bool.and_eq_true] at h
    exact fun hmem => (List.mem_append.mp hmem).elim (ihr h.1) (ihs h.2)
  | left _ ih =>
    simp only [avoids, Bool.and_eq_true] at h
    exact ih h.1
  | right _ ih =>
    simp only [avoids, Bool.and_eq_true] at h
    exact ih h.2
  | nil => exact List.not_mem_nil
  | cons _ _ ihr ihs => exact fun hmem => (List.mem_append.mp hmem).elim (ihr h) (ihs h)

theorem matches_plus_set : Matches mem (plus (set c)) w ↔ w ≠ [] ∧ ∀ b ∈ w, mem c b := by
  have hstar {w : List β} : Matches mem (star (set c)) w ↔ ∀ b ∈ w, mem c b := by
    induction w with
    | nil => simp [Matches.nil]
    | cons b w ih =>
      rw [matches_star_cons]
      constructor
      · rintro ⟨u, v, rfl, hb, hv⟩
        obtain ⟨b', hb', heq⟩ := matches_set.mp hb
        obtain ⟨rfl, rfl⟩ := List.cons.inj heq
        rw [List.nil_append] at ih
        intro a ha
        rcases List.mem_cons.mp ha with rfl | ha
        · exact hb'
        · exact ih.mp hv a ha
      · intro h
        refine ⟨[], w, rfl, matches_set.mpr ⟨b, h b List.mem_cons_self, rfl⟩, ?_⟩
        exact ih.mpr fun a ha => h a (List.mem_cons_of_mem _ ha)
  rw [plus, matches_seq]
  constructor
  · rintro ⟨u, v, rfl, hu, hv⟩
    obtain ⟨b, hb, rfl⟩ := matches_set.mp hu
    refine ⟨by simp, fun a ha => ?_⟩
    rcases List.mem_cons.mp ha with rfl | ha
    · exact hb
    · exact hstar.mp hv a ha
  · rintro ⟨hne, h⟩
    obtain ⟨b, w, rfl⟩ := List.exists_cons_of_ne_nil hne
    refine ⟨[b], w, rfl, matches_set.mpr ⟨b, h b List.mem_cons_self, rfl⟩, ?_⟩
    exact hstar.mpr fun a ha => h a (List.mem_cons_of_mem _ ha)

theorem longest_append_done [DecidableEq κ] (h : (derivs mem r v).isDone) :
    longest mem r (v ++ w) = longest mem r v := by
  induction v generalizing r with
  | nil =>
    have hfail (w : List β) : longest mem fail w = none := by cases w <;> rfl
    cases r with
    | fail => exact hfail w
    | empty =>
      cases w with
      | nil => rfl
      | cons b w =>
        simp only [List.nil_append, longest, deriv, hfail, isFail, nullable]
        rfl
    | _ => cases h
  | cons b v ih => rw [List.cons_append, longest, longest, ih h]

theorem longest_some [DecidableEq κ] {n : ℕ} : longest mem r w = some n →
    n ≤ w.length ∧ Matches mem r (w.take n) := by
  induction w generalizing r n with
  | nil =>
    intro h
    unfold longest at h
    split_ifs at h with hn
    cases h
    exact ⟨le_rfl, nullable_iff.mp hn⟩
  | cons b w ih =>
    intro h
    unfold longest at h
    split_ifs at h with hf hn
    · split at h
      · rename_i m hm
        cases h
        obtain ⟨hle, hmatch⟩ := ih hm
        exact ⟨Nat.succ_le_succ hle, matches_deriv.mp hmatch⟩
      · cases h
        exact ⟨Nat.zero_le _, nullable_iff.mp hn⟩
    · split at h
      · rename_i m hm
        cases h
        obtain ⟨hle, hmatch⟩ := ih hm
        exact ⟨Nat.succ_le_succ hle, matches_deriv.mp hmatch⟩
      · cases h

theorem longest_max [DecidableEq κ] (h : Matches mem r v) :
    ∃ n, longest mem r (v ++ w) = some n ∧ v.length ≤ n := by
  induction v generalizing r with
  | nil =>
    have hn : r.nullable := nullable_iff.mpr h
    cases w with
    | nil => exact ⟨0, by simp [longest, hn], le_rfl⟩
    | cons b w =>
      have hf : ¬ r.isFail := fun hf => by
        rw [isFail_iff.mp hf] at hn
        cases hn
      rw [List.nil_append, longest, if_neg hf]
      cases longest mem (deriv mem b r) w with
      | none => exact ⟨0, by simp [hn], le_rfl⟩
      | some n => exact ⟨n + 1, rfl, Nat.zero_le _⟩
  | cons b v ih =>
    have hf : ¬ r.isFail := fun hf => by
      rw [isFail_iff.mp hf] at h
      exact not_matches_fail h
    obtain ⟨n, hn, hle⟩ := ih (matches_deriv.mpr h)
    rw [List.cons_append, longest, if_neg hf, hn]
    exact ⟨n + 1, rfl, Nat.succ_le_succ hle⟩

def Stops (mem : κ → β → Bool) (r : Rx κ) (b : β) : Prop :=
  ∀ w t, Matches mem r w → ¬ Matches mem r (w ++ b :: t)

theorem longest_le [DecidableEq κ] {n : ℕ} (hlong : longest mem r (v ++ w) = some n)
    (h : ∀ u, u ≠ [] → u <+: w → ¬ Matches mem r (v ++ u)) : n ≤ v.length := by
  obtain ⟨hle, hmatch⟩ := longest_some hlong
  by_contra hlt
  rw [Nat.not_le] at hlt
  rw [List.take_append, List.take_of_length_le hlt.le] at hmatch
  refine h (w.take (n - v.length)) ?_ (List.take_prefix _ _) hmatch
  rw [List.length_append] at hle
  intro hnil
  have := congrArg List.length hnil
  rw [List.length_take, List.length_nil] at this
  omega

theorem deriv_congr [DecidableEq κ] {b' : β} (h : ∀ c ∈ r.classes, mem c b = mem c b') :
    deriv mem b r = deriv mem b' r := by
  induction r with
  | fail => rfl
  | empty => rfl
  | set c => rw [deriv, deriv, h c List.mem_cons_self]
  | seq r s ihr ihs =>
    rw [deriv, deriv, ihr fun c hc => h c (List.mem_append_left _ hc),
      ihs fun c hc => h c (List.mem_append_right _ hc)]
  | alt r s ihr ihs =>
    rw [deriv, deriv, ihr fun c hc => h c (List.mem_append_left _ hc),
      ihs fun c hc => h c (List.mem_append_right _ hc)]
  | star r ih => rw [deriv, deriv, ih h]

/-- A set of expressions that holds their derivatives, by a symbol like any given one for their
classes, and in which only what fails comes after a match and the symbol shows that each of them
stops at the symbol. -/
theorem stops_of_closed [DecidableEq κ] {rs : List (Rx κ)} {bs : List β} {cs : List κ}
    (hlike : ∀ b, ∃ b' ∈ bs, ∀ c ∈ cs, mem c b = mem c b')
    (hclasses : ∀ r ∈ rs, ∀ c ∈ r.classes, c ∈ cs)
    (hclosed : ∀ r ∈ rs, ∀ b ∈ bs, deriv mem b r ∈ rs)
    (hstop : ∀ r ∈ rs, r.nullable → (deriv mem b r).isFail) (hr : r ∈ rs) : Stops mem r b := by
  intro w t h
  induction w generalizing r with
  | nil =>
    exact not_matches_of_deriv (hstop r hr (nullable_iff.mpr h))
  | cons c w ih =>
    obtain ⟨c', hc', hlike⟩ := hlike c
    have heq : deriv mem c r = deriv mem c' r :=
      deriv_congr fun k hk => hlike k (hclasses r hr k hk)
    rw [List.cons_append, ← matches_deriv]
    refine ih ?_ (matches_deriv.mpr h)
    rw [heq]
    exact hclosed r hr c' hc'

end Rx

section

variable {κ β : Type*} [DecidableEq κ] (mem : κ → β → Bool)

/-- The length of the longest prefix that a rule matches, and the first rule that matches it. -/
def munch {α : Type*} : List (Rx κ × α) → List β → Option (ℕ × α)
  | [], _ => none
  | (r, a) :: rules, s =>
    match r.longest mem s, munch rules s with
    | some n, some (m, b) => if m ≤ n then some (n, a) else some (m, b)
    | some n, none => some (n, a)
    | none, res => res

variable {mem} {α : Type*} {rules : List (Rx κ × α)} {w rest : List β}

theorem munch_le (h : ∀ rule ∈ rules, ∀ n, rule.1.longest mem rest = some n → n ≤ w.length) {n : ℕ}
    {a : α} (hm : munch mem rules rest = some (n, a)) : n ≤ w.length := by
  induction rules with
  | nil => cases hm
  | cons rule rules ih =>
    obtain ⟨r, a'⟩ := rule
    have hr := h (r, a') List.mem_cons_self
    have ih := ih fun rule hmem => h rule (List.mem_cons_of_mem _ hmem)
    rw [munch] at hm
    split at hm
    · split_ifs at hm <;> cases hm
      · exact hr _ ‹_›
      · exact ih ‹_›
    · cases hm
      exact hr _ ‹_›
    · exact ih hm

theorem munch_mem {n : ℕ} {a : α} (hm : munch mem rules rest = some (n, a)) :
    ∃ rule ∈ rules, rule.2 = a := by
  induction rules with
  | nil => cases hm
  | cons rule rules ih =>
    obtain ⟨r, a'⟩ := rule
    have ih (h : munch mem rules rest = some (n, a)) : ∃ rule ∈ (r, a') :: rules, rule.2 = a := by
      obtain ⟨rule, hmem, heq⟩ := ih h
      exact ⟨rule, List.mem_cons_of_mem _ hmem, heq⟩
    rw [munch] at hm
    split at hm
    · split_ifs at hm
      · obtain ⟨-, rfl⟩ := Prod.mk.inj (Option.some.inj hm)
        exact ⟨_, List.mem_cons_self, rfl⟩
      · rename_i heq _
        exact ih (heq.trans hm)
    · obtain ⟨-, rfl⟩ := Prod.mk.inj (Option.some.inj hm)
      exact ⟨_, List.mem_cons_self, rfl⟩
    · exact ih hm

/-- A prefix that a rule matches is munched when no rule matches more and no earlier rule matches
as much. -/
theorem munch_eq {before after : List (Rx κ × α)} {r : Rx κ} {a : α} (hw : r.Matches mem w)
    (hlong : ∀ rule ∈ before ++ (r, a) :: after, ∀ u, u ≠ [] → u <+: rest →
      ¬ rule.1.Matches mem (w ++ u))
    (hbefore : ∀ rule ∈ before, ¬ rule.1.Matches mem w) :
    munch mem (before ++ (r, a) :: after) (w ++ rest) = some (w.length, a) := by
  have hle : ∀ rule ∈ before ++ (r, a) :: after, ∀ n,
      rule.1.longest mem (w ++ rest) = some n → n ≤ w.length :=
    fun rule hmem n hn => Rx.longest_le hn (hlong rule hmem)
  clear hlong
  induction before with
  | nil =>
    obtain ⟨n, hn, hge⟩ := Rx.longest_max (w := rest) hw
    obtain rfl := le_antisymm (hle (r, a) List.mem_cons_self n hn) hge
    rw [List.nil_append, munch, hn]
    have hafter : ∀ {m b}, munch mem after (w ++ rest) = some (m, b) → m ≤ w.length :=
      munch_le fun rule hmem => hle rule (List.mem_cons_of_mem _ hmem)
    rcases hm : munch mem after (w ++ rest) with _ | ⟨m, b⟩
    · rfl
    · exact if_pos (hafter hm)
  | cons rule before ih =>
    obtain ⟨r', a'⟩ := rule
    have ih := ih (fun rule hmem => hbefore rule (List.mem_cons_of_mem _ hmem))
      fun rule hmem => hle rule (List.mem_cons_of_mem _ hmem)
    rw [List.cons_append, munch, ih]
    rcases hn : r'.longest mem (w ++ rest) with _ | n
    · rfl
    · have hlt : n < w.length := by
        refine lt_of_le_of_ne (hle (r', a') List.mem_cons_self n hn) fun heq => ?_
        obtain ⟨-, hmatch⟩ := Rx.longest_some hn
        rw [heq, List.take_left] at hmatch
        exact hbefore (r', a') List.mem_cons_self hmatch
      exact if_neg (Nat.not_le.mpr hlt)

theorem munch_append_done (h : ∀ rule ∈ rules, (rule.1.derivs mem w).isDone) :
    munch mem rules (w ++ rest) = munch mem rules w := by
  induction rules with
  | nil => rfl
  | cons rule rules ih =>
    obtain ⟨r, a⟩ := rule
    rw [munch, munch, Rx.longest_append_done (h (r, a) List.mem_cons_self),
      ih fun rule hmem => h rule (List.mem_cons_of_mem _ hmem)]

end

/-- The rules of a state; the action of a rule gives the next state and perhaps a token. -/
structure Scanner (κ β σ τ : Type*) where
  mem : κ → β → Bool
  rules : σ → List (Rx κ × (σ → List β → σ × Option τ))

namespace Scanner

variable {κ β σ τ : Type*} [DecidableEq κ] (sc : Scanner κ β σ τ)

/-- The tokens of a text and the state at its end; a symbol that no rule matches is skipped. -/
def run : ℕ → σ → List β → List τ × σ
  | 0, st, _ => ([], st)
  | _ + 1, st, [] => ([], st)
  | fuel + 1, st, b :: s =>
    match munch sc.mem (sc.rules st) (b :: s) with
    | some (n + 1, act) =>
      let r := act st (b :: s.take n)
      let rest := run fuel r.1 (s.drop n)
      (r.2.toList ++ rest.1, rest.2)
    | _ => run fuel st s

def scan (st : σ) (s : List β) : List τ × σ := sc.run s.length st s

variable {sc} {st : σ} {s w rest : List β}

theorem run_eq_scan {fuel : ℕ} (h : s.length ≤ fuel) : sc.run fuel st s = sc.scan st s := by
  unfold scan
  induction fuel using Nat.strong_induction_on generalizing st s with
  | _ fuel ih =>
    cases s with
    | nil => cases fuel <;> rfl
    | cons b s =>
      obtain ⟨fuel, rfl⟩ := Nat.exists_eq_add_of_le' (Nat.le_trans (Nat.le_add_left 1 _) h)
      have hle : s.length ≤ fuel := Nat.le_of_succ_le_succ h
      have hstep {st : σ} {t : List β} (ht : t.length ≤ s.length) :
          sc.run fuel st t = sc.run s.length st t := by
        rw [ih fuel (Nat.lt_succ_self _) (ht.trans hle)]
        rcases Nat.lt_or_ge s.length (fuel + 1) with hlt | hge
        · exact (ih s.length hlt ht).symm
        · omega
      rw [run, List.length_cons, run]
      split
      · simp only [hstep (List.length_drop.trans_le (Nat.sub_le _ _))]
      · exact hstep le_rfl

theorem scan_append {act : σ → List β → σ × Option τ}
    (hm : munch sc.mem (sc.rules st) (w ++ rest) = some (w.length, act)) (hw : w ≠ []) :
    sc.scan st (w ++ rest) = ((act st w).2.toList ++ (sc.scan (act st w).1 rest).1,
      (sc.scan (act st w).1 rest).2) := by
  obtain ⟨b, w, rfl⟩ := List.exists_cons_of_ne_nil hw
  rw [List.cons_append, List.length_cons] at hm
  rw [List.cons_append, scan, List.length_cons, run, hm]
  simp only [List.take_left, List.drop_left]
  rw [run_eq_scan (by simp)]

def next (sc : Scanner κ β σ τ) : ℕ → σ → List β → Option (τ × List β) × σ
  | 0, st, _ => (none, st)
  | _ + 1, st, [] => (none, st)
  | fuel + 1, st, b :: s =>
    match munch sc.mem (sc.rules st) (b :: s) with
    | some (n + 1, act) =>
      match act st (b :: s.take n) with
      | (st, some t) => (some (t, s.drop n), st)
      | (st, none) => next sc fuel st (s.drop n)
    | _ => next sc fuel st s

theorem scan_next {fuel : ℕ} (h : s.length ≤ fuel) : sc.scan st s =
    match sc.next fuel st s with
    | (none, st) => ([], st)
    | (some (t, rest), st) => (t :: (sc.scan st rest).1, (sc.scan st rest).2) := by
  induction fuel generalizing st s with
  | zero =>
    obtain rfl := List.length_eq_zero_iff.mp (Nat.le_zero.mp h)
    rfl
  | succ fuel ih =>
    cases s with
    | nil => rfl
    | cons b s =>
      have hle : s.length ≤ fuel := Nat.le_of_succ_le_succ h
      rw [scan, List.length_cons, run, next]
      split
      · next n act hm =>
        have hdrop : (s.drop n).length ≤ s.length := List.length_drop.trans_le (Nat.sub_le _ _)
        dsimp only
        rw [run_eq_scan hdrop]
        rcases act st (b :: s.take n) with ⟨st, _ | t⟩
        · exact ih (hdrop.trans hle)
        · rfl
      · exact ih hle

theorem next_length {fuel : ℕ} {t : τ} {st' : σ} (h : sc.next fuel st s = (some (t, rest), st')) :
    rest.length < s.length := by
  induction fuel generalizing st s with
  | zero => cases h
  | succ fuel ih =>
    cases s with
    | nil => cases h
    | cons b s =>
      rw [next] at h
      split at h
      · next n act hm =>
        have hdrop : (s.drop n).length ≤ s.length := List.length_drop.trans_le (Nat.sub_le _ _)
        rcases hact : act st (b :: s.take n) with ⟨st, _ | t⟩ <;> rw [hact] at h
        · exact Nat.lt_succ_of_lt (Nat.lt_of_lt_of_le (ih h) hdrop)
        · obtain ⟨-, rfl⟩ := Prod.mk.inj (Option.some.inj (Prod.mk.inj h).1)
          exact Nat.lt_succ_of_le hdrop
      · exact Nat.lt_succ_of_lt (ih h)

/-- The next token comes from an action of the rules in use, if the others leave the state as it
is. -/
theorem next_cases {fuel : ℕ} (hskip : ∀ rule ∈ sc.rules st, ∀ w,
      (rule.2 st w).2 = none → (rule.2 st w).1 = st) :
    (sc.next fuel st s = (none, st)) ∨ ∃ rule ∈ sc.rules st, ∃ w t rest,
      (rule.2 st w).2 = some t ∧ sc.next fuel st s = (some (t, rest), (rule.2 st w).1) := by
  induction fuel generalizing s with
  | zero => exact .inl rfl
  | succ fuel ih =>
    cases s with
    | nil => exact .inl rfl
    | cons b s =>
      rw [next]
      split
      · next n act hm =>
        obtain ⟨rule, hmem, rfl⟩ := munch_mem hm
        have hskip := hskip rule hmem (b :: s.take n)
        rcases hact : rule.2 st (b :: s.take n) with ⟨st', _ | t⟩
        · rw [hact] at hskip
          obtain rfl : st' = st := hskip rfl
          exact ih
        · exact .inr ⟨rule, hmem, _, t, s.drop n, by rw [hact], by rw [hact]⟩
      · exact ih

theorem next_congr {st' : σ} {fuel : ℕ} (hrules : sc.rules st = sc.rules st')
    (htok : ∀ rule ∈ sc.rules st, ∀ w, (rule.2 st w).2 = (rule.2 st' w).2)
    (hskip : ∀ rule ∈ sc.rules st, ∀ w, (rule.2 st w).2 = none →
      (rule.2 st w).1 = st ∧ (rule.2 st' w).1 = st') :
    (sc.next fuel st s).1 = (sc.next fuel st' s).1 := by
  induction fuel generalizing s with
  | zero => rfl
  | succ fuel ih =>
    cases s with
    | nil => rfl
    | cons b s =>
      rw [next, next, ← hrules]
      split
      · next n act hm =>
        obtain ⟨rule, hmem, rfl⟩ := munch_mem hm
        have htok := htok rule hmem (b :: s.take n)
        have hskip := hskip rule hmem (b :: s.take n)
        rcases hact : rule.2 st (b :: s.take n) with ⟨st₁, _ | t⟩ <;>
          rcases hact' : rule.2 st' (b :: s.take n) with ⟨st₂, _ | t'⟩ <;>
          rw [hact, hact'] at htok hskip
        · obtain ⟨rfl, rfl⟩ := hskip rfl
          exact ih
        · cases htok
        · cases htok
        · obtain rfl : t = t' := Option.some.inj htok
          rfl
      · exact ih

end Scanner
