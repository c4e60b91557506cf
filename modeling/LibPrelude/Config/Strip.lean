import LibPrelude.Config.Lines

/-! # Stripping inside of a line

The text of an entry or of a value is found by going from both of its ends over blanks and
quotes. Behind a quote the way back from the end may come to the quote itself, and ends there, so
that no character outside of the line is looked at.
-/

namespace LibPrelude

/-- Go back over the blanks at the end of `elen` characters from `inp` on; an access outside of the
line has no result. -/
def trimBack (str : Line) (inp : ℕ) : ℕ → Option ℕ
  | 0 => if inp = 0 then none else str[inp - 1]?.bind fun b => if isBlank b then none else some 0
  | elen + 1 => str[inp + elen]?.bind fun b =>
    if isBlank b then trimBack str inp elen else some (elen + 1)

def stripValueAt (str : Line) (inp tlen : ℕ) : Option (Option Line) :=
  let slen := ((str.drop inp).takeWhile isBlank).length
  let inp := inp + slen
  let haveStartQuote : Bool := str[inp]? = some 34
  let slen := if haveStartQuote then slen + 1 else slen
  let inp := if haveStartQuote then inp + 1 else inp
  if tlen < slen then none
  else if tlen - slen = 0 then some none
  else (trimBack str inp (tlen - slen)).bind fun elen =>
    if haveStartQuote ∧ elen ≠ 0 then
      str[inp + elen - 1]?.map fun b =>
        if b = 34 then if elen - 1 = 0 then none else some ((str.drop inp).take (elen - 1))
        else some ((str.drop (inp - 1)).take (elen + 1))
    else some (if elen = 0 then none else some ((str.drop inp).take elen))

/-- The entry and the value of a line are stripped inside of it. -/
def Within (line : Line) : Prop :=
  stripValueAt line 0 (line.takeWhile (· ≠ 61)).length = some (entryOf line) ∧
    (61 ∈ line → stripValueAt line ((line.takeWhile (· ≠ 61)).length + 1)
      (line.dropWhile (· ≠ 61)).tail.length = some (valueOf line))

section

variable {str u x z : Line} {c : UInt8}

theorem trimBack_eq (hstr : str = u ++ x ++ z)
    (h : x.rdropWhile isBlank ≠ [] ∨ ∃ c, u.getLast? = some c ∧ ¬ isBlank c) :
    trimBack str u.length x.length = some (x.rdropWhile isBlank).length := by
  induction x using List.reverseRecOn generalizing z with
  | nil =>
    obtain ⟨c, hc, hb⟩ := h.resolve_left fun h => h rfl
    obtain ⟨u, rfl⟩ := List.getLast?_eq_some_iff.mp hc
    have hget : str[(u ++ [c]).length - 1]? = some c := by simp [hstr]
    rw [List.length_nil, trimBack, if_neg (by simp), hget, Option.bind_some, if_neg hb]
    rfl
  | append_singleton x b ih =>
    have hget : str[u.length + x.length]? = some b := by
      rw [hstr, ← List.append_assoc, List.append_assoc (u ++ x), ← List.length_append]
      simp
    rw [List.length_append, List.length_singleton, trimBack, hget, Option.bind_some]
    by_cases hb : isBlank b
    · rw [List.rdropWhile_concat_pos _ _ _ hb] at h ⊢
      rw [if_pos hb]
      exact ih (z := b :: z) (by simp [hstr]) h
    · rw [if_neg hb, List.rdropWhile_concat_neg _ _ _ hb, List.length_append,
        List.length_singleton]

theorem takeWhile_blank (hz : z.head? ≠ some 32 ∧ z.head? ≠ some 9 ∧ z.head? ≠ some 13) :
    (x ++ z).takeWhile isBlank = x.takeWhile isBlank := by
  have hnone : z.takeWhile isBlank = [] := by
    cases z with
    | nil => rfl
    | cons c z => exact List.takeWhile_cons_of_neg (by simpa [isBlank] using hz)
  rw [List.takeWhile_append]
  split
  next h => rw [hnone, List.append_nil, (List.takeWhile_prefix isBlank).eq_of_length h]
  next => rfl

theorem take_rdropWhile (hstr : str = u ++ x ++ z) :
    (str.drop u.length).take (x.rdropWhile isBlank).length = x.rdropWhile isBlank := by
  obtain ⟨w, hw⟩ := List.rdropWhile_prefix isBlank (l := x)
  rw [hstr, List.append_assoc, List.drop_left]
  nth_rewrite 2 [← hw]
  rw [List.append_assoc, List.take_left]

theorem blank_cases (x : Line) : (∀ c ∈ x, isBlank c) ∨
    ∃ b c r, x = b ++ c :: r ∧ (∀ d ∈ b, isBlank d) ∧ ¬ isBlank c := by
  have hx : x = x.takeWhile isBlank ++ x.dropWhile isBlank := List.takeWhile_append_dropWhile.symm
  have hb (d : UInt8) (hd : d ∈ x.takeWhile isBlank) : isBlank d := List.mem_takeWhile_imp hd
  have hnot := List.head?_dropWhile_not isBlank x
  cases hr : x.dropWhile isBlank with
  | nil =>
    rw [hr, List.append_nil] at hx
    exact .inl (hx ▸ hb)
  | cons c r =>
    rw [hr] at hx hnot
    exact .inr ⟨_, c, r, hx, hb, by simpa using hnot⟩

theorem dropWhile_blank {b r : Line} (hb : ∀ d ∈ b, isBlank d) (hc : ¬ isBlank c) :
    (b ++ c :: r).dropWhile isBlank = c :: r := by
  rw [List.dropWhile_append_of_pos hb, List.dropWhile_cons_of_neg hc]

theorem stripValue_blank (hx : ∀ c ∈ x, isBlank c) : stripValue x = none := by
  rw [stripValue, List.dropWhile_eq_nil_iff.mpr hx]
  rfl

theorem rdropWhile_ne_nil {r : Line} (hc : ¬ isBlank c) : (c :: r).rdropWhile isBlank ≠ [] := by
  intro h
  exact hc (List.rdropWhile_eq_nil_iff.mp h c List.mem_cons_self)

theorem stripValue_plain {b r : Line} (hb : ∀ d ∈ b, isBlank d) (hc : ¬ isBlank c) (hq : c ≠ 34) :
    stripValue (b ++ c :: r) = some ((c :: r).rdropWhile isBlank) := by
  have hquote : decide ((c :: r).head? = some 34) = false := by simpa using hq
  simp only [stripValue, dropWhile_blank hb hc, hquote, Bool.false_eq_true, if_false, false_and]
  rw [if_neg (rdropWhile_ne_nil hc)]

theorem stripValue_quote {b r : Line} (hb : ∀ d ∈ b, isBlank d) :
    stripValue (b ++ 34 :: r) =
      if r.rdropWhile isBlank = [] ∨ r.rdropWhile isBlank = [34] then none
      else if (r.rdropWhile isBlank).getLast? = some 34 then some (r.rdropWhile isBlank).dropLast
      else some (34 :: r.rdropWhile isBlank) := by
  simp only [stripValue, dropWhile_blank hb (show ¬ isBlank 34 by decide), List.head?_cons,
    decide_true, if_true, List.tail_cons, true_and]
  generalize r.rdropWhile isBlank = t
  rcases List.eq_nil_or_concat' t with rfl | ⟨t, d, rfl⟩
  · rfl
  rw [if_pos (List.append_ne_nil_of_right_ne_nil t (List.cons_ne_nil d [])), List.getLast?_concat,
    List.dropLast_concat]
  by_cases hd : d = 34
  · subst hd
    cases t with
    | nil => rfl
    | cons e t => simp
  · have hne : t ++ [d] ≠ [34] := fun h => hd (by simpa using congrArg List.getLast? h)
    simp [hd, hne]

theorem stripValueAt_eq (hz : z.head? = none ∨ z.head? = some 61) :
    stripValueAt (u ++ x ++ z) u.length x.length = some (stripValue x) := by
  have hblanks : ((u ++ x ++ z).drop u.length).takeWhile isBlank = x.takeWhile isBlank := by
    rw [List.append_assoc, List.drop_left]
    exact takeWhile_blank (by rcases hz with h | h <;> simp [h])
  rcases blank_cases x with hx | ⟨b, c, r, rfl, hb, hc⟩
  · have hget : (u ++ x ++ z)[u.length + x.length]? ≠ some 34 := by
      rw [← List.length_append, List.getElem?_append_right le_rfl, Nat.sub_self,
        ← List.head?_eq_getElem?]
      rcases hz with h | h <;> simp [h]
    have hself : x.takeWhile isBlank = x := List.takeWhile_eq_self_iff.mpr hx
    simp only [stripValueAt, hblanks, hself, stripValue_blank hx, decide_eq_false hget]
    simp
  have hself : (b ++ c :: r).takeWhile isBlank = b := by
    rw [List.takeWhile_append_of_pos hb, List.takeWhile_cons_of_neg hc, List.append_nil]
  have hline : u ++ (b ++ c :: r) ++ z = (u ++ b) ++ c :: r ++ z := by simp
  have hget : ((u ++ b) ++ c :: r ++ z)[(u ++ b).length]? = some c := by simp
  rw [hline] at hblanks ⊢
  by_cases hq : c = 34
  · subst hq
    have hline' : (u ++ b) ++ 34 :: r ++ z = (u ++ b ++ [34]) ++ r ++ z := by simp
    have hlen : (u ++ b ++ [34]).length = (u ++ b).length + 1 := List.length_append
    have hback := trimBack_eq hline' (.inr ⟨34, List.getLast?_concat, by decide⟩)
    have htake := take_rdropWhile hline'
    rw [hlen] at hback htake
    have hsub : (b ++ 34 :: r).length - (b.length + 1) = r.length := by simp; omega
    simp only [stripValueAt, hblanks, hself, ← List.length_append, hget, decide_true, if_true,
      hsub, stripValue_quote hb, hback, Option.bind_some]
    rw [if_neg (by simp)]
    obtain ⟨w, hw⟩ := List.rdropWhile_prefix isBlank (l := r)
    generalize r.rdropWhile isBlank = t at *
    subst hw
    rcases List.eq_nil_or_concat' t with rfl | ⟨t, d, rfl⟩
    · simp
    have hsplit : u ++ b ++ 34 :: (t ++ [d] ++ w) ++ z = (u ++ b ++ 34 :: t) ++ d :: (w ++ z) := by
      simp
    have hlast : (u ++ b ++ 34 :: (t ++ [d] ++ w) ++ z)[(u ++ b).length + 1 +
        (t ++ [d]).length - 1]? = some d := by
      have hidx : (u ++ b).length + 1 + (t ++ [d]).length - 1 = (u ++ b ++ 34 :: t).length := by
        simp
        omega
      rw [hidx, hsplit, List.getElem?_append_right le_rfl, Nat.sub_self, List.getElem?_cons_zero]
    have hdrop : (u ++ b ++ 34 :: (t ++ [d] ++ w) ++ z).drop (u ++ b).length =
        34 :: (t ++ [d]) ++ (w ++ z) := by
      rw [List.append_assoc, List.drop_left]
      simp
    have hquoted : ((u ++ b ++ 34 :: (t ++ [d] ++ w) ++ z).drop ((u ++ b).length + 1 - 1)).take
        ((t ++ [d]).length + 1) = 34 :: (t ++ [d]) := by
      rw [Nat.add_sub_cancel, hdrop]
      exact List.take_left' rfl
    have hunquoted :
        ((u ++ b ++ 34 :: (t ++ [d] ++ w) ++ z).drop ((u ++ b).length + 1)).take t.length = t := by
      rw [← List.drop_drop, hdrop, List.cons_append, List.drop_one, List.tail_cons,
        List.append_assoc]
      exact List.take_left' rfl
    have hpred : (t ++ [d]).length - 1 = t.length := by simp
    rw [if_neg (by simp), if_pos (by simp), hlast, Option.map_some, hpred, hquoted, hunquoted,
      List.getLast?_concat, List.dropLast_concat]
    by_cases hd : d = 34
    · subst hd
      cases t with
      | nil => simp
      | cons e t => simp
    · have hne : t ++ [d] ≠ [34] := fun h => hd (by simpa using congrArg List.getLast? h)
      simp [hd, hne]
  · have hback := @trimBack_eq (u ++ b ++ c :: r ++ z) (u ++ b) (c :: r) z rfl
      (.inl (rdropWhile_ne_nil hc))
    have htake := @take_rdropWhile (u ++ b ++ c :: r ++ z) (u ++ b) (c :: r) z rfl
    have hquote : decide (some c = some (34 : UInt8)) = false := by simpa using hq
    have hsub : (b ++ c :: r).length - b.length = (c :: r).length := by simp
    simp only [stripValueAt, hblanks, hself, ← List.length_append, hget, hquote,
      stripValue_plain hb hc hq, hsub, hback, Bool.false_eq_true, if_false, false_and,
      Option.bind_some, htake]
    rw [if_neg (by simp), if_neg (by simp), if_neg (by simpa using rdropWhile_ne_nil hc)]

theorem within (line : Line) : Within line := by
  have hsplit : line.takeWhile (· ≠ 61) ++ line.dropWhile (· ≠ 61) = line :=
    List.takeWhile_append_dropWhile
  have hhead := List.head?_dropWhile_not (fun c : UInt8 => decide (c ≠ 61)) line
  have hentry := @stripValueAt_eq [] (line.takeWhile (· ≠ 61)) (line.dropWhile (· ≠ 61)) (by
    cases hz : (line.dropWhile (· ≠ 61)).head? with
    | none => exact .inl rfl
    | some c =>
      rw [hz] at hhead
      exact .inr (congrArg some (by simpa using hhead)))
  rw [List.nil_append, hsplit] at hentry
  refine ⟨hentry, fun hmem => ?_⟩
  obtain ⟨xs, ys, hline, hx⟩ := List.eq_append_cons_of_mem hmem
  have hall (c : UInt8) (hc : c ∈ xs) : decide (c ≠ 61) = true :=
    decide_eq_true (ne_of_mem_of_not_mem hc hx)
  have htake : line.takeWhile (· ≠ 61) = xs := by
    rw [hline, List.takeWhile_append_of_pos hall, List.takeWhile_cons_of_neg (by simp),
      List.append_nil]
  have hdrop : (line.dropWhile (· ≠ 61)).tail = ys := by
    rw [hline, List.dropWhile_append_of_pos hall, List.dropWhile_cons_of_neg (by simp),
      List.tail_cons]
  have hvalue := @stripValueAt_eq (xs ++ [61]) ys [] (.inl rfl)
  rw [valueOf, htake, hdrop, hline, List.append_cons]
  rwa [List.append_nil, List.length_append, List.length_singleton] at hvalue

end

end LibPrelude
