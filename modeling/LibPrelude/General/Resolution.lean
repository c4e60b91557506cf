import Mathlib.Data.List.Basic

/-! # Lexical resolution

Names are read from left to right. One of them stands for the place reached so far and
another one for the place above it; resolving the first of these two again and again leaves
the names that are neither.
-/

namespace Resolution

variable {α : Type*}

def Plain (dot up : α) (ns : List α) : Prop := ∀ n ∈ ns, n ≠ dot ∧ n ≠ up

/-- The first special name is resolved. -/
inductive Step (dot up : α) : List α → List α → Prop
  | dot {front rest : List α} : Plain dot up front →
      Step dot up (front ++ dot :: rest) (front ++ rest)
  | up {front rest : List α} : Plain dot up front →
      Step dot up (front ++ up :: rest) (front.dropLast ++ rest)

variable [DecidableEq α] {dot up : α}

/-- Where names lead from a place. -/
def resolveFrom (dot up : α) (place : List α) : List α → List α
  | [] => place
  | n :: ns =>
    if n = dot then resolveFrom dot up place ns
    else if n = up then resolveFrom dot up place.dropLast ns
    else resolveFrom dot up (place ++ [n]) ns

def resolve (dot up : α) (ns : List α) : List α := resolveFrom dot up [] ns

theorem resolveFrom_plain {front : List α} (h : Plain dot up front) (place rest : List α) :
    resolveFrom dot up place (front ++ rest) = resolveFrom dot up (place ++ front) rest := by
  induction front generalizing place with
  | nil => rw [List.nil_append, List.append_nil]
  | cons n front ih =>
    obtain ⟨hdot, hup⟩ := h n List.mem_cons_self
    rw [List.cons_append, resolveFrom, if_neg hdot, if_neg hup,
      ih fun m hm => h m (List.mem_cons_of_mem n hm), List.append_assoc, List.singleton_append]

theorem resolve_plain {ns : List α} (h : Plain dot up ns) : resolve dot up ns = ns := by
  have hr := resolveFrom_plain h [] []
  rwa [List.append_nil, List.nil_append] at hr

theorem Step.resolve_eq (hne : dot ≠ up) {ns ns' : List α} (h : Step dot up ns ns') :
    resolve dot up ns' = resolve dot up ns := by
  cases h with
  | @dot front rest hf =>
    rw [resolve, resolve, resolveFrom_plain hf, resolveFrom_plain hf, resolveFrom, if_pos rfl]
  | @up front rest hf =>
    have hd : Plain dot up front.dropLast := fun n hn => hf n (List.dropLast_subset _ hn)
    rw [resolve, resolve, resolveFrom_plain hf, resolveFrom_plain hd, resolveFrom,
      if_neg hne.symm, if_pos rfl, List.nil_append, List.nil_append]

omit [DecidableEq α] in
theorem Plain.behind {front rest front' rest' : List α} {n : α} (hf : Plain dot up front)
    (hf' : Plain dot up front') (hn : n = dot ∨ n = up) (h : front ++ rest = front' ++ n :: rest') :
    ∃ mid, Plain dot up mid ∧ front' = front ++ mid ∧ rest = mid ++ n :: rest' := by
  rcases List.append_eq_append_iff.mp h with ⟨mid, rfl, rfl⟩ | ⟨mid, rfl, hmid⟩
  · exact ⟨mid, fun m hm => hf' m (List.mem_append_right _ hm), rfl, rfl⟩
  · cases mid with
    | nil => exact ⟨[], nofun, by simp, hmid.symm⟩
    | cons m mid =>
      obtain ⟨rfl, -⟩ := List.cons.inj hmid
      have hplain := hf n (by simp)
      exact absurd hn (not_or.mpr hplain)

omit [DecidableEq α] in
theorem Step.behind {front rest ns' : List α} (hf : Plain dot up front)
    (h : Step dot up (front ++ rest) ns') :
    (∃ mid rest', Plain dot up mid ∧ rest = mid ++ dot :: rest' ∧ ns' = front ++ mid ++ rest') ∨
      ∃ mid rest', Plain dot up mid ∧ rest = mid ++ up :: rest' ∧
        ns' = (front ++ mid).dropLast ++ rest' := by
  generalize hns : front ++ rest = ns at h
  cases h with
  | dot hf' =>
    obtain ⟨mid, hmid, rfl, hrest⟩ := hf.behind hf' (.inl rfl) hns
    exact .inl ⟨mid, _, hmid, hrest, rfl⟩
  | up hf' =>
    obtain ⟨mid, hmid, rfl, hrest⟩ := hf.behind hf' (.inr rfl) hns
    exact .inr ⟨mid, _, hmid, hrest, rfl⟩

omit [DecidableEq α] in
theorem Plain.step_up_iff (hne : dot ≠ up) {front rest ns' : List α} (hf : Plain dot up front) :
    Step dot up (front ++ up :: rest) ns' ↔ ns' = front.dropLast ++ rest := by
  constructor
  · intro h
    rcases h.behind hf with ⟨mid, rest', hmid, hrest, rfl⟩ | ⟨mid, rest', hmid, hrest, rfl⟩
    · cases mid with
      | nil => exact absurd (List.cons.inj hrest).1 hne.symm
      | cons m mid =>
        obtain ⟨rfl, -⟩ := List.cons.inj hrest
        exact absurd rfl (hmid up List.mem_cons_self).2
    · cases mid with
      | nil =>
        obtain ⟨-, rfl⟩ := List.cons.inj hrest
        rw [List.append_nil]
      | cons m mid =>
        obtain ⟨rfl, -⟩ := List.cons.inj hrest
        exact absurd rfl (hmid up List.mem_cons_self).2
  · rintro rfl
    exact .up hf

end Resolution
