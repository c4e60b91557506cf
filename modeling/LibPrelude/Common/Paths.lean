import LibPrelude.General.Resolution
import Mathlib.Data.List.TakeWhile
import Mathlib.Order.Basic
import Mathlib.Data.List.Induction

/-! # Normalising a path

The text of a path is searched for a dot with a slash behind it, and rewritten in place. The
search finds the dot component and the one for the directory above, but also every other
component that ends in a dot, and going up leaves the component between two slashes even
when that is empty.
-/

namespace LibPrelude

/-- Where a string first contains another one. -/
def strstr (needle : List UInt8) : List UInt8 → Option ℕ
  | [] => if needle = [] then some 0 else none
  | b :: bs => if needle.isPrefixOf (b :: bs) then some 0 else (strstr needle bs).map (· + 1)

def memmoveDown (path : List UInt8) (dst src : ℕ) : Option (List UInt8) :=
  if dst ≤ src ∧ src ≤ path.length then some (path.take dst ++ path.drop src) else none

/-- Go back to behind the second slash, or to the start of the path. -/
def backUp (path : List UInt8) : ℕ → ℕ → Option ℕ
  | 0, _ => some 0
  | ptr + 1, cnt => path[ptr]?.bind fun b =>
    if b = 47 then if cnt + 1 = 2 then some (ptr + 1) else backUp path ptr (cnt + 1)
    else backUp path ptr cnt

/-- The body of the loop, for a dot and a slash at `ptr`; an access outside of the path has no
result. -/
def normalizeAt (path : List UInt8) (ptr : ℕ) : Option (List UInt8) :=
  let fin := ptr + 2
  if ptr = 0 then memmoveDown path ptr fin
  else path[ptr - 1]?.bind fun b =>
    if b ≠ 46 then memmoveDown path ptr fin
    else (backUp path ptr 0).bind fun ptr =>
      memmoveDown path (if ptr = 0 then ptr + 1 else ptr) fin

def normalizeLoop : ℕ → List UInt8 → Option (List UInt8)
  | 0, _ => none
  | fuel + 1, path => match strstr [46, 47] path with
    | none => some path
    | some ptr => (normalizeAt path ptr).bind (normalizeLoop fuel)

def normalizePath (path : List UInt8) : Option (List UInt8) := normalizeLoop (path.length + 1) path

def normalizeStep (path : List UInt8) : Option (List UInt8) :=
  (strstr [46, 47] path).bind (normalizeAt path)

/-- What the loop makes of a path, round after round. -/
inductive Rewritten : List UInt8 → List UInt8 → Prop
  | stop (p : List UInt8) : Rewritten p p
  | round {p p' q : List UInt8} : normalizeStep p = some p' → Rewritten p' q → Rewritten p q

/-- The components of a path that are not empty. -/
def pathNames (path : List UInt8) : List (List UInt8) := (path.splitOn 47).filter (· ≠ [])

/-- The text of an absolute path with the given components. -/
def pathText (comps : List (List UInt8)) : List UInt8 := comps.flatMap (47 :: ·)

/-- An absolute path whose last component is the name of a file. -/
structure AbsolutePath where
  dirs : List (List UInt8)
  file : List UInt8
  dirs_free : ∀ c ∈ dirs, 47 ∉ c
  file_free : 47 ∉ file
  file_ne : file ≠ [] ∧ file ≠ [46] ∧ file ≠ [46, 46]

def AbsolutePath.comps (p : AbsolutePath) : List (List UInt8) := p.dirs ++ [p.file]

def AbsolutePath.text (p : AbsolutePath) : List UInt8 := pathText p.comps

/-- Every round resolves the first dot or up component, and what is left in the end are the names
that the path leads to; normalising that again changes nothing. -/
structure Normalizes (path : List UInt8) : Prop where
  rounds : ∀ p p', Rewritten path p → normalizeStep p = some p' →
    Resolution.Step [46] [46, 46] (pathNames p) (pathNames p')
  result : ∃ p, normalizePath path = some p ∧
    pathNames p = Resolution.resolve [46] [46, 46] (pathNames path) ∧ normalizePath p = some p

/-- Behind the components `st`, last one first: no directory ends in a dot but the dot and up
components, and none of the latter comes behind an empty component with a name above it. -/
def CleanFrom : List (List UInt8) → List (List UInt8) → Prop
  | _, [] => True
  | _, [_] => True
  | st, c :: c' :: cs =>
    if c = [46] then CleanFrom st (c' :: cs)
    else if c = [46, 46] then
      (st.head? ≠ some [] ∨ ∀ d ∈ st, d = []) ∧ CleanFrom st.tail (c' :: cs)
    else c.getLast? ≠ some 46 ∧ CleanFrom (c :: st) (c' :: cs)

section Text

theorem pathText_append (as bs : List (List UInt8)) :
    pathText (as ++ bs) = pathText as ++ pathText bs := List.flatMap_append

@[simp] theorem pathText_nil : pathText [] = [] := rfl

theorem pathText_cons (c : List UInt8) (cs : List (List UInt8)) :
    pathText (c :: cs) = 47 :: (c ++ pathText cs) := rfl

theorem splitOn_pathText {cs : List (List UInt8)} (h : ∀ c ∈ cs, 47 ∉ c) :
    (pathText cs).splitOn 47 = [] :: cs := by
  have hbody (c : List UInt8) (cs : List (List UInt8)) (h : ∀ d ∈ c :: cs, 47 ∉ d) :
      (c ++ pathText cs).splitOn 47 = c :: cs := by
    induction cs generalizing c with
    | nil =>
      rw [pathText, List.flatMap_nil, List.append_nil]
      exact List.splitOn_eq_singleton (h c List.mem_cons_self)
    | cons d cs ih =>
      rw [pathText_cons, List.splitOn_append_cons_self_of_not_mem (h c List.mem_cons_self),
        ih d fun e he => h e (List.mem_cons_of_mem c he)]
  cases cs with
  | nil => rfl
  | cons c cs =>
    rw [pathText_cons, ← hbody c cs h]
    exact List.splitOn_append_cons_self_of_not_mem (List.not_mem_nil (a := 47)) _

theorem pathNames_pathText {cs : List (List UInt8)} (h : ∀ c ∈ cs, 47 ∉ c) :
    pathNames (pathText cs) = cs.filter (· ≠ []) := by
  rw [pathNames, splitOn_pathText h]
  rfl

theorem pathText_splitOn (s : List UInt8) :
    pathText (s.splitOn 47) = 47 :: s ∧ ∀ c ∈ s.splitOn 47, 47 ∉ c := by
  induction hn : s.length using Nat.strong_induction_on generalizing s with
  | _ n ih =>
    by_cases hs : (47 : UInt8) ∈ s
    · obtain ⟨xs, ys, rfl, hx⟩ := List.eq_append_cons_of_mem hs
      rw [List.length_append, List.length_cons] at hn
      obtain ⟨htext, hfree⟩ := ih ys.length (by omega) ys rfl
      rw [List.splitOn_append_cons_self_of_not_mem hx, pathText_cons, htext]
      exact ⟨rfl, List.forall_mem_cons.mpr ⟨hx, hfree⟩⟩
    · rw [List.splitOn_eq_singleton hs, pathText_cons, pathText_nil, List.append_nil]
      exact ⟨rfl, List.forall_mem_singleton.mpr hs⟩

/-- Every path that starts with a slash and ends in the name of a file is one. -/
theorem exists_absolutePath {s file : List UInt8} (hlast : (s.splitOn 47).getLast? = some file)
    (hfile : file ≠ [] ∧ file ≠ [46] ∧ file ≠ [46, 46]) : ∃ p : AbsolutePath, p.text = 47 :: s := by
  obtain ⟨htext, hfree⟩ := pathText_splitOn s
  obtain ⟨dirs, hdirs⟩ := List.getLast?_eq_some_iff.mp hlast
  rw [hdirs] at htext hfree
  exact ⟨⟨dirs, file, fun c hc => hfree c (List.mem_append_left _ hc),
    hfree file (List.mem_append_right _ (List.mem_singleton_self file)), hfile⟩, htext⟩

end Text

section Search

variable {u v w t d : List UInt8}

theorem strstr_cons {b : UInt8} {bs : List UInt8} (h : ¬ ([46, 47].isPrefixOf (b :: bs))) :
    strstr [46, 47] (b :: bs) = (strstr [46, 47] bs).map (· + 1) := by
  rw [strstr, if_neg h]

theorem strstr_cons_ne {b : UInt8} {bs : List UInt8} (h : ¬ (b = 46 ∧ bs.head? = some 47)) :
    strstr [46, 47] (b :: bs) = (strstr [46, 47] bs).map (· + 1) := by
  apply strstr_cons
  intro hp
  rw [List.isPrefixOf_iff_prefix, List.cons_prefix_cons] at hp
  obtain ⟨hb, t, ht⟩ := hp
  exact h ⟨hb.symm, by rw [← ht]; rfl⟩

/-- Nothing is found in front of a dot that may only begin a match. -/
theorem strstr_first (h : strstr [46, 47] (u ++ [46]) = none) :
    strstr [46, 47] (u ++ 46 :: 47 :: v) = some u.length := by
  induction u with
  | nil => rfl
  | cons b u ih =>
    have hb : ¬ (b = 46 ∧ (u ++ [46]).head? = some 47) := by
      rintro ⟨rfl, hhead⟩
      rw [List.cons_append, strstr, if_pos] at h
      · cases h
      · cases u with
        | nil => cases hhead
        | cons c u =>
          cases hhead
          rfl
    have hb' : ¬ (b = 46 ∧ (u ++ 46 :: 47 :: v).head? = some 47) := by
      cases u with
      | nil => simp
      | cons c u => exact hb
    rw [List.cons_append, strstr_cons_ne hb, Option.map_eq_none_iff] at h
    rw [List.cons_append, strstr_cons_ne hb', ih h]
    rfl

theorem strstr_of_free (h : 47 ∉ t) : strstr [46, 47] t = none := by
  induction t with
  | nil => rfl
  | cons b t ih =>
    have hb : ¬ (b = 46 ∧ t.head? = some 47) :=
      fun hc => h (List.mem_cons_of_mem b (List.mem_of_mem_head? hc.2))
    rw [strstr_cons_ne hb, ih fun hm => h (List.mem_cons_of_mem b hm)]
    rfl

theorem strstr_component (hd : 47 ∉ d) (hl : d.getLast? ≠ some 46)
    (hw : strstr [46, 47] w = none) : strstr [46, 47] (d ++ w) = none := by
  induction d with
  | nil => exact hw
  | cons b d ih =>
    have hb : ¬ (b = 46 ∧ (d ++ w).head? = some 47) := by
      rintro ⟨rfl, hhead⟩
      cases d with
      | nil => exact hl rfl
      | cons c d =>
        cases hhead
        exact hd (by simp)
    rw [List.cons_append, strstr_cons_ne hb, Option.map_eq_none_iff]
    refine ih (fun hm => hd (List.mem_cons_of_mem b hm)) ?_
    cases d with
    | nil => simp
    | cons c d => rwa [List.getLast?_cons_cons] at hl

theorem strstr_slash (hw : strstr [46, 47] w = none) : strstr [46, 47] (47 :: w) = none := by
  rw [strstr_cons_ne (by simp), hw]
  rfl

theorem strstr_pathText {cs : List (List UInt8)} (h : ∀ c ∈ cs, 47 ∉ c ∧ c.getLast? ≠ some 46)
    (hw : strstr [46, 47] w = none) : strstr [46, 47] (pathText cs ++ w) = none := by
  induction cs with
  | nil => exact hw
  | cons c cs ih =>
    obtain ⟨hc, hl⟩ := h c List.mem_cons_self
    rw [pathText_cons, List.cons_append, List.append_assoc]
    exact strstr_slash (strstr_component hc hl (ih fun d hd => h d (List.mem_cons_of_mem c hd)))

theorem strstr_some {path : List UInt8} {ptr : ℕ} (h : strstr [46, 47] path = some ptr) :
    ptr + 2 ≤ path.length := by
  induction path generalizing ptr with
  | nil => cases h
  | cons b bs ih =>
    rw [strstr] at h
    split at h
    next hp =>
      cases h
      have hp := (List.isPrefixOf_iff_prefix.mp hp).length_le
      exact hp
    next =>
      obtain ⟨k, hk, rfl⟩ := Option.map_eq_some_iff.mp h
      have hk := ih hk
      rw [List.length_cons]
      omega

end Search

section Back

variable {path u v x : List UInt8}

/-- A stretch without slashes is passed over. -/
theorem backUp_free (hx : 47 ∉ x) (hp : path = u ++ (x ++ v)) (cnt : ℕ) :
    backUp path (u.length + x.length) cnt = backUp path u.length cnt := by
  induction x using List.reverseRecOn generalizing v with
  | nil => rfl
  | append_singleton x b ih =>
    have hget : path[u.length + x.length]? = some b := by
      rw [hp, ← List.append_assoc, ← List.append_assoc, List.append_assoc (u ++ x),
        ← List.length_append]
      simp
    have hb : b ≠ 47 := by
      rintro rfl
      exact hx (by simp)
    rw [List.length_append, List.length_singleton, ← Nat.add_assoc, backUp, hget,
      Option.bind_some, if_neg hb]
    exact ih (v := b :: v) (fun hm => hx (List.mem_append_left _ hm)) (by simp [hp])

theorem backUp_slash (hp : path = u ++ 47 :: v) :
    backUp path (u.length + 1) 0 = backUp path u.length 1 ∧
      backUp path (u.length + 1) 1 = some (u.length + 1) := by
  have hget : path[u.length]? = some 47 := by simp [hp]
  constructor
  · rw [backUp, hget]
    rfl
  · rw [backUp, hget]
    rfl

theorem backUp_le {ptr cnt : ℕ} (h : ptr ≤ path.length) :
    ∃ ptr', backUp path ptr cnt = some ptr' ∧ ptr' ≤ ptr := by
  induction ptr generalizing cnt with
  | zero => exact ⟨0, rfl, le_rfl⟩
  | succ ptr ih =>
    rw [backUp, List.getElem?_eq_getElem (by omega), Option.bind_some]
    split
    · split
      · exact ⟨ptr + 1, rfl, le_rfl⟩
      · obtain ⟨ptr', h', hle⟩ := @ih (cnt + 1) (by omega)
        exact ⟨ptr', h', by omega⟩
    · obtain ⟨ptr', h', hle⟩ := @ih cnt (by omega)
      exact ⟨ptr', h', by omega⟩

end Back

section Step

variable {u v c c' : List UInt8} {pre rest : List (List UInt8)}

theorem memmoveDown_match {k : ℕ} (hk : k ≤ u.length) :
    memmoveDown (u ++ 46 :: 47 :: v) k (u.length + 2) = some (u.take k ++ v) := by
  have hdrop : (u ++ 46 :: 47 :: v).drop (u.length + 2) = v := by
    rw [← List.drop_drop, List.drop_left]
    rfl
  rw [memmoveDown, if_pos (by simp; omega), List.take_append_of_le_length hk, hdrop]

theorem normalizeAt_dot (hl : u.getLast? ≠ some 46) :
    normalizeAt (u ++ 46 :: 47 :: v) u.length = some (u ++ v) := by
  have hmove := memmoveDown_match (v := v) (le_refl u.length)
  rw [List.take_length] at hmove
  rw [normalizeAt]
  rcases List.eq_nil_or_concat' u with rfl | ⟨u, b, rfl⟩
  · exact hmove
  · have hget : (u ++ [b] ++ 46 :: 47 :: v)[(u ++ [b]).length - 1]? = some b := by
      simp
    have hb : b ≠ 46 := by
      rintro rfl
      exact hl List.getLast?_concat
    rw [if_neg (by simp), hget, Option.bind_some, if_pos hb, hmove]

theorem normalizeAt_up {k : ℕ}
    (hback : backUp (u ++ [46] ++ 46 :: 47 :: v) (u.length + 1) 0 = some k) (hk : k ≤ u.length) :
    normalizeAt (u ++ [46] ++ 46 :: 47 :: v) (u.length + 1) =
      some ((u ++ [46]).take (if k = 0 then 1 else k) ++ v) := by
  have hget : (u ++ [46] ++ 46 :: 47 :: v)[u.length + 1 - 1]? = some 46 := by
    simp
  have hmove := memmoveDown_match (u := u ++ [46]) (v := v) (k := if k = 0 then 1 else k)
    (by rw [List.length_append, List.length_singleton]; split <;> omega)
  rw [List.length_append, List.length_singleton] at hmove
  rw [normalizeAt, if_neg (by omega), hget, Option.bind_some, if_neg (by simp), hback,
    Option.bind_some, ← hmove]
  split
  next h => rw [h]
  next => rfl

/-- A component that ends in a dot, but not in two, loses it and is joined with the next one. -/
theorem normalizeStep_join (hpre : ∀ d ∈ pre, 47 ∉ d ∧ d.getLast? ≠ some 46) (hc : 47 ∉ c)
    (hl : c.getLast? ≠ some 46) : normalizeStep (pathText (pre ++ (c ++ [46]) :: c' :: rest)) =
      some (pathText (pre ++ (c ++ c') :: rest)) := by
  have htext : pathText (pre ++ (c ++ [46]) :: c' :: rest) =
      (pathText pre ++ 47 :: c) ++ 46 :: 47 :: (c' ++ pathText rest) := by
    simp [pathText_append, pathText_cons]
  have hfree : 47 ∉ c ++ [46] := by simpa using hc
  have hfind : strstr [46, 47] ((pathText pre ++ 47 :: c) ++ [46]) = none := by
    rw [List.append_assoc]
    exact strstr_pathText hpre (strstr_slash (strstr_of_free hfree))
  have hlast : (pathText pre ++ 47 :: c).getLast? ≠ some 46 := by
    rw [List.getLast?_append_of_ne_nil _ (List.cons_ne_nil 47 c)]
    cases c with
    | nil => simp
    | cons b c => rwa [List.getLast?_cons_cons]
  rw [normalizeStep, htext, strstr_first hfind, Option.bind_some, normalizeAt_dot hlast,
    pathText_append, pathText_cons]
  simp

/-- A component that ends in two dots is taken out with the one in front of it. -/
theorem normalizeStep_up (hpre : ∀ d ∈ pre, 47 ∉ d ∧ d.getLast? ≠ some 46) (hc : 47 ∉ c)
    (hrest : rest ≠ []) : normalizeStep (pathText (pre ++ (c ++ [46, 46]) :: rest)) =
      some (pathText (pre.dropLast ++ rest)) := by
  obtain ⟨c', rest, rfl⟩ := List.exists_cons_of_ne_nil hrest
  have htext : pathText (pre ++ (c ++ [46, 46]) :: c' :: rest) =
      (pathText pre ++ 47 :: c) ++ [46] ++ 46 :: 47 :: (c' ++ pathText rest) := by
    simp [pathText_append, pathText_cons]
  have hfree : 47 ∉ c ++ [46] ++ [46] := by simpa using hc
  have hfind : strstr [46, 47] ((pathText pre ++ 47 :: c) ++ [46] ++ [46]) = none := by
    rw [List.append_assoc, List.append_assoc]
    exact strstr_pathText hpre (strstr_slash (strstr_of_free (by simpa using hfree)))
  set path := (pathText pre ++ 47 :: c) ++ [46] ++ 46 :: 47 :: (c' ++ pathText rest) with hpath
  have hback : backUp path ((pathText pre ++ 47 :: c).length + 1) 0 =
      backUp path (pathText pre).length 1 := by
    have hstretch := @backUp_free path (pathText pre ++ [47]) (46 :: 47 :: (c' ++ pathText rest))
      (c ++ [46]) (by simpa using hc) (by simp [hpath]) 0
    have hslash := (@backUp_slash path (pathText pre)
      (c ++ [46] ++ 46 :: 47 :: (c' ++ pathText rest)) (by simp [hpath])).1
    rw [← hslash, List.length_append, List.length_cons]
    simpa [Nat.add_assoc, Nat.add_comm, Nat.add_left_comm] using hstretch
  rw [normalizeStep, htext, strstr_first hfind, Option.bind_some, List.length_append,
    List.length_singleton]
  rcases List.eq_nil_or_concat' pre with rfl | ⟨pre, d, rfl⟩
  · have hzero : backUp path ((pathText [] ++ 47 :: c).length + 1) 0 = some 0 := hback
    rw [hpath, normalizeAt_up hzero (Nat.zero_le _)]
    simp [pathText_cons]
  · obtain ⟨hd, -⟩ := hpre d (by simp)
    have hdir : backUp path (pathText (pre ++ [d])).length 1 =
        some ((pathText pre).length + 1) := by
      have hstretch := @backUp_free path (pathText pre ++ [47])
        (47 :: c ++ [46] ++ 46 :: 47 :: (c' ++ pathText rest)) d hd
        (by simp [hpath, pathText_append, pathText_cons]) 1
      have hslash := (@backUp_slash path (pathText pre)
        (d ++ 47 :: c ++ [46] ++ 46 :: 47 :: (c' ++ pathText rest))
        (by simp [hpath, pathText_append, pathText_cons])).2
      rw [← hslash]
      simpa [pathText_append, pathText_cons, Nat.add_assoc, Nat.add_comm, Nat.add_left_comm]
        using hstretch
    rw [hdir] at hback
    rw [hpath, normalizeAt_up hback (by simp [pathText_append, pathText_cons]), if_neg (by omega)]
    have htake : (pathText (pre ++ [d]) ++ 47 :: c ++ [46]).take ((pathText pre).length + 1) =
        pathText pre ++ [47] := by
      have hsplit : pathText (pre ++ [d]) ++ 47 :: c ++ [46] =
          (pathText pre ++ [47]) ++ (d ++ 47 :: c ++ [46]) := by
        simp [pathText_append, pathText_cons]
      rw [hsplit]
      exact List.take_left' (by simp)
    rw [htake]
    simp [pathText_append, pathText_cons]

end Step

section Total

variable {path p q : List UInt8}

theorem normalizeAt_total {ptr : ℕ} (h : ptr + 2 ≤ path.length) :
    ∃ p, normalizeAt path ptr = some p ∧ p.length + 2 ≤ path.length := by
  have move {dst : ℕ} (hdst : dst ≤ ptr) :
      ∃ p, memmoveDown path dst (ptr + 2) = some p ∧ p.length + 2 ≤ path.length := by
    refine ⟨_, if_pos ⟨by omega, h⟩, ?_⟩
    rw [List.length_append, List.length_take, List.length_drop]
    omega
  rw [normalizeAt]
  split
  · exact move le_rfl
  next hne =>
    rw [List.getElem?_eq_getElem (by omega), Option.bind_some]
    split
    · exact move le_rfl
    · obtain ⟨k, hk, hle⟩ := @backUp_le path ptr 0 (by omega)
      rw [hk, Option.bind_some]
      exact move (by split <;> omega)

theorem normalizeStep_length (h : normalizeStep path = some p) : p.length + 2 ≤ path.length := by
  obtain ⟨ptr, hptr, hat⟩ := Option.bind_eq_some_iff.mp h
  obtain ⟨p', hp', hle⟩ := normalizeAt_total (strstr_some hptr)
  obtain rfl := Option.some.inj (hp'.symm.trans hat)
  exact hle

/-- The loop ends for every path, without an access outside of it. -/
theorem normalizePath_total (path : List UInt8) : ∃ p, normalizePath path = some p := by
  have loop (fuel : ℕ) (path : List UInt8) (hf : path.length < fuel) :
      ∃ p, normalizeLoop fuel path = some p := by
    induction fuel generalizing path with
    | zero => omega
    | succ fuel ih =>
      rw [normalizeLoop]
      cases hptr : strstr [46, 47] path with
      | none => exact ⟨path, rfl⟩
      | some ptr =>
        obtain ⟨p, hp, hle⟩ := normalizeAt_total (strstr_some hptr)
        dsimp only
        rw [hp, Option.bind_some]
        exact ih p (by omega)
  exact loop _ path (Nat.lt_succ_self _)

theorem normalizeStep_eq_none (h : strstr [46, 47] path = none) : normalizeStep path = none := by
  rw [normalizeStep, h]
  rfl

theorem Rewritten.normalizePath (h : Rewritten path q) (hq : strstr [46, 47] q = none) :
    LibPrelude.normalizePath path = some q := by
  have loop (fuel : ℕ) (hf : path.length < fuel) : normalizeLoop fuel path = some q := by
    induction h generalizing fuel with
    | stop p =>
      cases fuel with
      | zero => omega
      | succ fuel => rw [normalizeLoop, hq]
    | @round p p' q hstep _ ih =>
      have hle := normalizeStep_length hstep
      obtain ⟨ptr, hptr, hat⟩ := Option.bind_eq_some_iff.mp hstep
      cases fuel with
      | zero => omega
      | succ fuel =>
        rw [normalizeLoop, hptr]
        dsimp only
        rw [hat, Option.bind_some]
        exact ih hq fuel (by omega)
  exact loop _ (Nat.lt_succ_self _)

end Total

section Rounds

/-- Every round from a path on resolves a component. -/
def Rounds (path : List UInt8) : Prop :=
  ∀ p p', Rewritten path p → normalizeStep p = some p' →
    Resolution.Step [46] [46, 46] (pathNames p) (pathNames p')

variable {path path' q : List UInt8}

theorem rounds_of_none (h : normalizeStep path = none) : Rounds path := by
  intro p p' hp hs
  cases hp with
  | stop => cases h.symm.trans hs
  | round hs' _ => cases h.symm.trans hs'

theorem rounds_iff (h : normalizeStep path = some path') : Rounds path ↔
    Resolution.Step [46] [46, 46] (pathNames path) (pathNames path') ∧ Rounds path' := by
  constructor
  · intro hr
    exact ⟨hr path path' (.stop path) h, fun p p' hp => hr p p' (.round h hp)⟩
  · rintro ⟨hstep, hr⟩ p p' hp hs
    cases hp with
    | stop =>
      obtain rfl := Option.some.inj (h.symm.trans hs)
      exact hstep
    | round hs' hp =>
      obtain rfl := Option.some.inj (h.symm.trans hs')
      exact hr p p' hp hs

theorem Rounds.resolve_eq (h : Rounds path) (hq : Rewritten path q) :
    Resolution.resolve [46] [46, 46] (pathNames q) =
      Resolution.resolve [46] [46, 46] (pathNames path) := by
  induction hq with
  | stop => rfl
  | round hs _ ih =>
    obtain ⟨hstep, hr⟩ := (rounds_iff hs).mp h
    rw [ih hr, hstep.resolve_eq (by decide)]

end Rounds

section Clean

variable {st pre dirs cs : List (List UInt8)} {c c' file : List UInt8}

theorem ne_special (h : c.getLast? ≠ some 46) : c ≠ [46] ∧ c ≠ [46, 46] :=
  ⟨fun hc => h (hc ▸ rfl), fun hc => h (hc ▸ rfl)⟩

theorem cleanFrom_plain (h : ∀ d ∈ pre, d.getLast? ≠ some 46) :
    CleanFrom st (pre ++ c :: cs) ↔ CleanFrom (pre.reverse ++ st) (c :: cs) := by
  induction pre generalizing st with
  | nil => rfl
  | cons d pre ih =>
    obtain ⟨hd, hd'⟩ := ne_special (h d List.mem_cons_self)
    obtain ⟨e, es, he⟩ := List.exists_cons_of_ne_nil (show pre ++ c :: cs ≠ [] by simp)
    have ih := @ih (d :: st) fun e he => h e (List.mem_cons_of_mem d he)
    rw [List.cons_append, he, CleanFrom, if_neg hd, if_neg hd', ← he, ih, List.reverse_cons,
      List.append_assoc, List.singleton_append, and_iff_right (h d List.mem_cons_self)]

theorem dirs_cases (dirs : List (List UInt8)) : (∀ d ∈ dirs, d.getLast? ≠ some 46) ∨
    ∃ pre c post, dirs = pre ++ (c ++ [46]) :: post ∧ ∀ d ∈ pre, d.getLast? ≠ some 46 := by
  induction dirs with
  | nil => exact .inl nofun
  | cons d dirs ih =>
    by_cases hd : d.getLast? = some 46
    · obtain ⟨c, rfl⟩ := List.getLast?_eq_some_iff.mp hd
      exact .inr ⟨[], c, dirs, rfl, nofun⟩
    · rcases ih with ih | ⟨pre, c, post, rfl, hpre⟩
      · exact .inl (List.forall_mem_cons.mpr ⟨hd, ih⟩)
      · exact .inr ⟨d :: pre, c, post, rfl, List.forall_mem_cons.mpr ⟨hd, hpre⟩⟩

theorem plain_filter (h : ∀ d ∈ pre, d.getLast? ≠ some 46) :
    Resolution.Plain [46] [46, 46] (pre.filter (· ≠ [])) :=
  fun d hd => ne_special (h d (List.mem_of_mem_filter hd))

theorem plain_append {front : List (List UInt8)} (hf : Resolution.Plain [46] [46, 46] front)
    (hc : c ≠ [46] ∧ c ≠ [46, 46]) : Resolution.Plain [46] [46, 46] (front ++ [c]) := by
  intro n hn
  rcases List.mem_append.mp hn with hn | hn
  · exact hf n hn
  · rwa [List.mem_singleton.mp hn]

/-- The last component is the last name when it is not empty, or there is no name. -/
theorem filter_dropLast_iff (pre : List (List UInt8)) :
    pre.dropLast.filter (· ≠ []) = (pre.filter (· ≠ [])).dropLast ↔
      (pre.reverse.head? ≠ some [] ∨ ∀ d ∈ pre.reverse, d = []) := by
  rcases List.eq_nil_or_concat' pre with rfl | ⟨pre, d, rfl⟩
  · simp
  rw [List.dropLast_concat, List.filter_append, List.filter_singleton, List.reverse_concat,
    List.head?_cons]
  by_cases hd : d = []
  · subst hd
    have hempty : pre.filter (· ≠ []) = [] ↔ ∀ d ∈ pre, d = [] := by
      simp [List.filter_eq_nil_iff]
    have hself : pre.filter (· ≠ []) = (pre.filter (· ≠ [])).dropLast ↔
        pre.filter (· ≠ []) = [] := by
      constructor
      · intro h
        have hl := congrArg List.length h
        rw [List.length_dropLast] at hl
        exact List.length_eq_zero_iff.mp (by omega)
      · intro h
        rw [h]
        rfl
    simp only [ne_eq, not_true_eq_false, decide_false, cond_false, List.append_nil, false_or,
      List.forall_mem_cons, List.mem_reverse, true_and]
    exact hself.trans hempty
  · simp [hd]

theorem not_step_up (hpre : ∀ d ∈ pre, d.getLast? ≠ some 46) (hc : c ≠ [46] ∧ c ≠ [46, 46])
    (rest : List (List UInt8)) :
    ¬ Resolution.Step [46] [46, 46] (pre.filter (· ≠ []) ++ c :: rest)
      (pre.dropLast.filter (· ≠ []) ++ rest) := by
  have hplain := plain_filter hpre
  have hfront := plain_append hplain hc
  intro h
  rw [List.append_cons] at h
  rcases h.behind hfront with ⟨mid, rest', hmid, rfl, heq⟩ | ⟨mid, rest', hmid, rfl, heq⟩
  · have hmem : [46] ∈ pre.filter (· ≠ []) ++ [c] ++ mid := by
      rw [List.append_cons mid, ← List.append_assoc] at heq
      rw [← List.append_cancel_right heq]
      simp
    rcases List.mem_append.mp hmem with hmem | hmem
    · exact (hfront _ hmem).1 rfl
    · exact (hmid _ hmem).1 rfl
  · have hmem : [46, 46] ∈ pre.filter (· ≠ []) ++ [c] ++ mid := by
      rw [List.append_cons mid, ← List.append_assoc] at heq
      apply List.dropLast_subset
      rw [← List.append_cancel_right heq]
      simp
    rcases List.mem_append.mp hmem with hmem | hmem
    · exact (hfront _ hmem).2 rfl
    · exact (hmid _ hmem).2 rfl

theorem special_iff :
    (c ++ [46] ≠ [46] ∧ c ++ [46] ≠ [46, 46]) ↔ (c ≠ [] ∧ c ≠ [46]) := by
  constructor
  · rintro ⟨h, h'⟩
    exact ⟨fun hc => h (by rw [hc]; rfl), fun hc => h' (by rw [hc]; rfl)⟩
  · rintro ⟨h, h'⟩
    exact ⟨fun hc => h (by simpa using hc),
      fun hc => h' (by simpa using congrArg List.dropLast hc)⟩

theorem not_step_join (hpre : ∀ d ∈ pre, d.getLast? ≠ some 46) (hc : c ≠ [])
    (hl : c.getLast? ≠ some 46) (hc' : c' ≠ [46]) :
    ¬ Resolution.Step [46] [46, 46]
      (pre.filter (· ≠ []) ++ (c ++ [46]) :: (c' :: cs).filter (· ≠ []))
      (pre.filter (· ≠ []) ++ (c ++ c') :: cs.filter (· ≠ [])) := by
  have hplain := plain_filter hpre
  have hfront := plain_append hplain (special_iff.mpr ⟨hc, (ne_special hl).1⟩)
  have hjoin : c ++ [46] ≠ c ++ c' := fun h => hc' (List.append_cancel_left h).symm
  have hlen : ((c' :: cs).filter (· ≠ [])).length ≤ 1 + (cs.filter (· ≠ [])).length := by
    rw [List.filter_cons]
    split
    · rw [List.length_cons, Nat.add_comm]
    · omega
  intro h
  rw [List.append_cons _ (c ++ [46])] at h
  rcases h.behind hfront with ⟨mid, rest', hmid, hrest, heq⟩ | ⟨mid, rest', hmid, hrest, heq⟩
  · rw [List.append_assoc, List.append_assoc] at heq
    exact hjoin (List.cons.inj (List.append_cancel_left heq)).1.symm
  · rcases List.eq_nil_or_concat' mid with rfl | ⟨mid, m, rfl⟩
    · rw [List.append_nil, List.dropLast_concat] at heq
      have hl := congrArg List.length (List.append_cancel_left heq)
      rw [hrest] at hlen
      simp only [List.nil_append, List.length_cons] at hlen hl
      omega
    · rw [← List.append_assoc, List.dropLast_concat, List.append_assoc, List.append_assoc] at heq
      exact hjoin (List.cons.inj (List.append_cancel_left heq)).1.symm

theorem normalizeStep_plain (h : ∀ d ∈ dirs, 47 ∉ d ∧ d.getLast? ≠ some 46) (hf : 47 ∉ file) :
    strstr [46, 47] (pathText (dirs ++ [file])) = none := by
  rw [pathText_append, pathText_cons, pathText_nil, List.append_nil]
  exact strstr_pathText h (strstr_slash (strstr_of_free hf))

theorem filter_append_cons (pre cs : List (List UInt8)) (hc : c ≠ []) :
    (pre ++ c :: cs).filter (· ≠ []) = pre.filter (· ≠ []) ++ c :: cs.filter (· ≠ []) := by
  rw [List.filter_append, List.filter_cons, if_pos (by simpa using hc)]

/-- The rounds resolve one component after the other just for a clean path, and then leave
directories that do not end in dots. -/
theorem rounds_iff_clean (hdirs : ∀ d ∈ dirs, 47 ∉ d) (hf : 47 ∉ file)
    (hfile : file ≠ [] ∧ file ≠ [46] ∧ file ≠ [46, 46]) :
    (Rounds (pathText (dirs ++ [file])) ↔ CleanFrom [] (dirs ++ [file])) ∧
      (CleanFrom [] (dirs ++ [file]) → ∃ dirs', (∀ d ∈ dirs', 47 ∉ d ∧ d.getLast? ≠ some 46) ∧
        Rewritten (pathText (dirs ++ [file])) (pathText (dirs' ++ [file]))) := by
  induction hn : dirs.length using Nat.strong_induction_on generalizing dirs with
  | _ n ih =>
    rcases dirs_cases dirs with hplain | ⟨pre, c, post, rfl, hpre⟩
    · have hall (d : List UInt8) (hd : d ∈ dirs) : 47 ∉ d ∧ d.getLast? ≠ some 46 :=
        ⟨hdirs d hd, hplain d hd⟩
      have hnone := normalizeStep_eq_none (normalizeStep_plain hall hf)
      have hclean : CleanFrom [] (dirs ++ [file]) := by
        rw [cleanFrom_plain hplain, CleanFrom]
        trivial
      exact ⟨⟨fun _ => hclean, fun _ => rounds_of_none hnone⟩, fun _ => ⟨dirs, hall, .stop _⟩⟩
    have hfree (d : List UInt8) (hd : d ∈ pre) : 47 ∉ d ∧ d.getLast? ≠ some 46 :=
      ⟨hdirs d (by simp [hd]), hpre d hd⟩
    have hcfree : 47 ∉ c := fun hm => hdirs (c ++ [46]) (by simp) (List.mem_append_left _ hm)
    rw [List.length_append, List.length_cons] at hn
    have hshape :
        pre ++ (c ++ [46]) :: post ++ [file] = pre ++ (c ++ [46]) :: (post ++ [file]) := by
      rw [List.append_assoc, List.cons_append]
    rw [hshape]
    have hnames := @pathNames_pathText (pre ++ (c ++ [46]) :: (post ++ [file])) (by
      rw [← hshape]
      exact fun d hd => (List.mem_append.mp hd).elim (hdirs d) fun h => by
        rw [List.mem_singleton.mp h]
        exact hf)
    rw [filter_append_cons pre (post ++ [file]) (by simp)] at hnames
    obtain ⟨c', rest, hrest⟩ := List.exists_cons_of_ne_nil (show post ++ [file] ≠ [] by simp)
    have hfrees (cs : List (List UInt8)) (hcs : ∀ d ∈ cs, d ∈ pre) (d : List UInt8)
        (hd : d ∈ cs ++ (post ++ [file])) : 47 ∉ d := by
      rcases List.mem_append.mp hd with hd | hd
      · exact (hfree d (hcs d hd)).1
      rcases List.mem_append.mp hd with hd | hd
      · exact hdirs d (by simp [hd])
      · rw [List.mem_singleton.mp hd]
        exact hf
    by_cases hl : c.getLast? = some 46
    · obtain ⟨c, rfl⟩ := List.getLast?_eq_some_iff.mp hl
      rw [List.append_assoc, List.singleton_append] at hnames ⊢
      have hstep := normalizeStep_up hfree (fun hm => hcfree (List.mem_append_left _ hm))
        (show post ++ [file] ≠ [] by simp)
      have hnext := pathNames_pathText (hfrees pre.dropLast fun d hd => List.dropLast_subset pre hd)
      rw [List.filter_append] at hnext
      have hlt : (pre.dropLast ++ post).length < n := by
        rw [List.length_append, List.length_dropLast]
        omega
      obtain ⟨ihr, ihc⟩ := @ih _ hlt (pre.dropLast ++ post) (fun d hd =>
        hfrees pre.dropLast (fun d hd => List.dropLast_subset pre hd) d (by
          rw [← List.append_assoc]
          exact List.mem_append_left _ hd)) rfl
      rw [List.append_assoc] at ihr ihc
      rw [rounds_iff hstep, hnames, hnext, cleanFrom_plain hpre, hrest, CleanFrom, ← hrest]
      by_cases hc : c = []
      · subst hc
        have hcond : Resolution.Step [46] [46, 46]
            (pre.filter (· ≠ []) ++ [46, 46] :: (post ++ [file]).filter (· ≠ []))
            (pre.dropLast.filter (· ≠ []) ++ (post ++ [file]).filter (· ≠ [])) ↔
              (pre.reverse.head? ≠ some [] ∨ ∀ d ∈ pre.reverse, d = []) := by
          rw [(plain_filter hpre).step_up_iff (by decide), List.append_cancel_right_eq,
            filter_dropLast_iff]
        have htail : CleanFrom [] (pre.dropLast ++ (post ++ [file])) ↔
            CleanFrom pre.reverse.tail (post ++ [file]) := by
          rw [hrest, cleanFrom_plain fun d hd => hpre d (List.dropLast_subset pre hd),
            List.append_nil, List.tail_reverse]
        rw [List.nil_append, if_neg (by decide), if_pos rfl, List.append_nil, hcond, ihr, htail]
        refine ⟨Iff.rfl, ?_⟩
        rintro ⟨-, hclean⟩
        obtain ⟨dirs', hdirs', hrew⟩ := ihc (htail.mpr hclean)
        exact ⟨dirs', hdirs', .round hstep hrew⟩
      · have hne : c ++ [46, 46] ≠ [46] ∧ c ++ [46, 46] ≠ [46, 46] := by
          constructor
          · intro h
            have := congrArg List.length h
            simp at this
          · exact fun h => hc (by simpa using h)
        have hlast : (c ++ [46, 46]).getLast? = some 46 := by simp
        rw [if_neg hne.1, if_neg hne.2]
        exact ⟨⟨fun h => absurd h.1 (not_step_up hpre hne _), fun h => absurd hlast h.1⟩,
          fun h => absurd hlast h.1⟩
    · have hstep := @normalizeStep_join c c' pre rest hfree hcfree hl
      rw [← hrest] at hstep
      rw [rounds_iff hstep, hnames]
      by_cases hc : c = []
      · subst hc
        have hnext := pathNames_pathText (hfrees pre fun d hd => hd)
        rw [List.filter_append] at hnext
        have hlt : (pre ++ post).length < n := by
          rw [List.length_append]
          omega
        obtain ⟨ihr, ihc⟩ := @ih _ hlt (pre ++ post) (fun d hd =>
          hfrees pre (fun d hd => hd) d (by
            rw [← List.append_assoc]
            exact List.mem_append_left _ hd)) rfl
        rw [List.append_assoc] at ihr ihc
        have hclean : CleanFrom [] (pre ++ [46] :: (post ++ [file])) ↔
            CleanFrom [] (pre ++ (post ++ [file])) := by
          rw [cleanFrom_plain hpre, hrest, CleanFrom, if_pos rfl, cleanFrom_plain hpre]
        have hpath : pre ++ ([] ++ c') :: rest = pre ++ (post ++ [file]) := by
          rw [List.nil_append, hrest]
        rw [hpath] at hstep ⊢
        rw [List.nil_append, hnext, hclean]
        refine ⟨?_, fun h => ?_⟩
        · rw [and_iff_right (.dot (plain_filter hpre)), ihr]
        · obtain ⟨dirs', hdirs', hrew⟩ := ihc h
          exact ⟨dirs', hdirs', .round hstep hrew⟩
      · have hbad (x : List UInt8) (xs : List (List UInt8)) :
            ¬ CleanFrom [] (pre ++ (c ++ [46]) :: x :: xs) := by
          have hne : c ++ [46] ≠ [46] ∧ c ++ [46] ≠ [46, 46] :=
            special_iff.mpr ⟨hc, (ne_special hl).1⟩
          rw [cleanFrom_plain hpre, CleanFrom, if_neg hne.1, if_neg hne.2]
          exact fun h => h.1 (by simp)
        refine ⟨⟨fun h => ?_, fun h => absurd h (hrest ▸ hbad _ _)⟩,
          fun h => absurd h (hrest ▸ hbad _ _)⟩
        obtain ⟨hs, hr⟩ := h
        have hcfree' : 47 ∉ c' := hfrees [] nofun c' (by simp [hrest])
        by_cases hc' : c' = [46]
        · -- the dot component behind it becomes the end of its name again
          subst hc'
          cases post with
          | nil => exact absurd (List.cons.inj hrest).1 hfile.2.1
          | cons d post =>
            obtain ⟨rfl, hpost⟩ := List.cons.inj hrest
            change post ++ [file] = rest at hpost
            subst hpost
            have hpath : pre ++ (c ++ [46]) :: (post ++ [file]) =
                pre ++ (c ++ [46]) :: post ++ [file] := by
              rw [List.append_assoc, List.cons_append]
            rw [hpath] at hr
            have hlt : (pre ++ (c ++ [46]) :: post).length < n := by
              rw [List.length_append, List.length_cons]
              rw [List.length_cons] at hn
              omega
            have hsub : (pre ++ (c ++ [46]) :: post).Sublist (pre ++ (c ++ [46]) :: [46] :: post) :=
              ((List.sublist_cons_self [46] post).cons_cons (c ++ [46])).append_left pre
            have hclean := (@ih _ hlt _ (fun d hd => hdirs d (hsub.mem hd)) rfl).1.mp hr
            rw [← hpath] at hclean
            obtain ⟨x, xs, hx⟩ := List.exists_cons_of_ne_nil (show post ++ [file] ≠ [] by simp)
            exact absurd hclean (hx ▸ hbad x xs)
        · have hnext := @pathNames_pathText (pre ++ (c ++ c') :: rest) fun d hd => by
            rcases List.mem_append.mp hd with hd | hd
            · exact (hfree d hd).1
            rcases List.mem_cons.mp hd with rfl | hd
            · exact fun hm => (List.mem_append.mp hm).elim hcfree hcfree'
            · exact hfrees [] nofun d (by rw [hrest]; exact List.mem_cons_of_mem c' hd)
          rw [hnext, filter_append_cons pre rest (by simp [hc]), hrest] at hs
          exact absurd hs (not_step_join hpre hc hl hc')

theorem resolve_pathText (h : ∀ d ∈ dirs, 47 ∉ d ∧ d.getLast? ≠ some 46) (hf : 47 ∉ file)
    (hfile : file ≠ [] ∧ file ≠ [46] ∧ file ≠ [46, 46]) :
    Resolution.resolve [46] [46, 46] (pathNames (pathText (dirs ++ [file]))) =
      pathNames (pathText (dirs ++ [file])) := by
  have hfree (d : List UInt8) (hd : d ∈ dirs ++ [file]) : 47 ∉ d := by
    rcases List.mem_append.mp hd with hd | hd
    · exact (h d hd).1
    · rwa [List.mem_singleton.mp hd]
  rw [pathNames_pathText hfree, filter_append_cons dirs [] hfile.1]
  exact Resolution.resolve_plain (plain_append (plain_filter fun d hd => (h d hd).2) hfile.2)

/-- Dots at the end of a directory's name and an up component behind a repeated slash are what
goes wrong. -/
theorem normalizes_iff (p : AbsolutePath) : Normalizes p.text ↔ CleanFrom [] p.comps := by
  obtain ⟨hrounds, hclean⟩ := rounds_iff_clean p.dirs_free p.file_free p.file_ne
  constructor
  · intro h
    exact hrounds.mp h.rounds
  · intro h
    have hr := hrounds.mpr h
    obtain ⟨dirs, hdirs, hrew⟩ := hclean h
    have hnone := normalizeStep_plain hdirs p.file_free
    refine ⟨hr, _, hrew.normalizePath hnone, ?_, (Rewritten.stop _).normalizePath hnone⟩
    rw [AbsolutePath.text, AbsolutePath.comps, ← Rounds.resolve_eq hr hrew,
      resolve_pathText hdirs p.file_free p.file_ne]

def dottedPath : AbsolutePath where
  dirs := [[102, 111, 111, 46]]
  file := [98, 97, 114]
  dirs_free := by simp
  file_free := by simp
  file_ne := by simp

/-- A dot at the end of a name is taken for a component, and the name is joined with the next. -/
theorem not_normalizes_dotted : ¬ Normalizes dottedPath.text ∧
    normalizePath dottedPath.text = some [47, 102, 111, 111, 98, 97, 114] := by
  have hp : normalizePath dottedPath.text = some (pathText [[102, 111, 111, 98, 97, 114]]) := by
    decide
  refine ⟨?_, hp⟩
  rintro ⟨-, p, hp', hnames, -⟩
  obtain rfl := Option.some.inj (hp.symm.trans hp')
  have hpath : dottedPath.text = pathText [[102, 111, 111, 46], [98, 97, 114]] := rfl
  rw [hpath, pathNames_pathText (by simp), pathNames_pathText (by simp)] at hnames
  exact absurd hnames (by decide)

end Clean

end LibPrelude
