import LibPrelude.Message.Basic
import Mathlib.Data.List.Basic
import Mathlib.Data.List.Infix

/-! # Reading a connection string in place

The string of a pool is cut into words where it is stored: the blank after a word is
overwritten with a NUL, and the next word is looked for behind it. The words between two
`||` make a list of connections, in which `&&` is skipped.
-/

namespace LibPrelude

/-- The string that starts at an offset. -/
def cString (buf : List Char) (off : ℕ) : List Char := (buf.drop off).takeWhile (· ≠ '\x00')

/-- Where the next word starts, the line with the blank behind it overwritten, and where what
follows starts. -/
def parseConfigStringAt (buf : List Char) : Option ℕ → Option (ℕ × List Char × Option ℕ)
  | none => none
  | some line =>
    let out := line + ((buf.drop line).takeWhile (· = ' ')).length
    let str := out + ((buf.drop out).takeWhile fun c => c ≠ '\x00' && c ≠ ' ').length
    if buf[str]? = some ' ' then some (out, buf.set str '\x00', some (str + 1))
    else some (out, buf, none)

/-- How the reading of a line ends: the lists that were built, and the line. -/
structure ConfigResult (C : Type*) where
  ret : Except ErrorCode Unit
  orList : List (List C)
  line : List Char

section

variable {C : Type*} (newConnectionFromAddress : List Char → Except ErrorCode C)

/-- Fill the last of the lists from the words of a line. -/
def parseConfigLineFrom : ℕ → Option ℕ → List (List C) → List Char → ConfigResult C
  | 0, _, lists, buf => ⟨.ok (), lists, buf⟩
  | fuel + 1, cfgline, lists, buf =>
    match parseConfigStringAt buf cfgline with
    | none => ⟨.ok (), lists, buf⟩
    | some (ptr, buf, cfgline) =>
      let word := cString buf ptr
      if word = ['|', '|'] then parseConfigLineFrom fuel cfgline (lists ++ [[]]) buf
      else if word = ['&', '&'] then parseConfigLineFrom fuel cfgline lists buf
      else
        match newConnectionFromAddress word with
        | .error e => ⟨.error e, lists, buf⟩
        | .ok c =>
          parseConfigLineFrom fuel cfgline (lists.modify (lists.length - 1) (· ++ [c])) buf

/-- A line has fewer words than bytes, or one. -/
def parseConfigLineAt (buf : List Char) : ConfigResult C :=
  parseConfigLineFrom newConnectionFromAddress (buf.length + 1) (some 0) [[]] buf

end

/-- The string is stored with a NUL behind it. -/
def setConnectionString (cfgstr : List Char) : List Char := cfgstr ++ ['\x00']

def getConnectionString (line : List Char) : List Char := cString line 0

/-- An address has no blanks, and is no operator. -/
structure ServerAddress where
  text : List Char
  ne_nil : text ≠ []
  plain : ∀ c ∈ text, c ≠ ' ' ∧ c ≠ '\x00'
  ne_or : text ≠ ['|', '|']
  ne_and : text ≠ ['&', '&']

/-- Addresses separated by the two operators. -/
structure ConnectionLine where
  groups : List (List ServerAddress)
  groups_ne : groups ≠ []
  group_ne : ∀ g ∈ groups, g ≠ []

def groupWords (g : List ServerAddress) : List (List Char) :=
  (g.map ServerAddress.text).intersperse ['&', '&']

def ConnectionLine.words (l : ConnectionLine) : List (List Char) :=
  List.intercalate [['|', '|']] (l.groups.map groupWords)

/-- Words with any number of blanks around them. -/
inductive Spaced : List (List Char) → List Char → Prop
  | last (before after : ℕ) (w : List Char) :
    Spaced [w] (.replicate before ' ' ++ w ++ .replicate after ' ')
  | cons (before : ℕ) (w : List Char) {ws : List (List Char)} {s : List Char} : Spaced ws s →
    Spaced (w :: ws) (.replicate before ' ' ++ w ++ ' ' :: s)

section

variable {C : Type*} {connect : List Char → Except ErrorCode C} {pre w rest buf : List Char}
  {n : ℕ}

theorem takeWhile_until {α : Type*} {p : α → Bool} {w rest : List α} {c : α}
    (hw : ∀ x ∈ w, p x = true) (hc : p c = false) :
    (w ++ c :: rest).takeWhile p = w := by
  rw [List.takeWhile_append_of_pos hw, List.takeWhile_cons_of_neg (by simp [hc]),
    List.append_nil]

def PlainWord (w : List Char) : Prop := ∀ c ∈ w, c ≠ ' ' ∧ c ≠ '\x00'

theorem parseConfigStringAt_word (n : ℕ) (hw : PlainWord w) {c : Char} (hc : c = ' ' ∨ c = '\x00')
    (hne : w = [] → c ≠ ' ') :
    parseConfigStringAt (pre ++ (.replicate n ' ' ++ (w ++ c :: rest))) (some pre.length) =
      some (pre.length + n, pre ++ (.replicate n ' ' ++ (w ++ '\x00' :: rest)),
        if c = ' ' then some (pre.length + n + w.length + 1) else none) := by
  have hblanks : ((List.replicate n ' ' ++ (w ++ c :: rest)).takeWhile (· = ' ')).length = n := by
    have hstop : ∃ d ds, w ++ c :: rest = d :: ds ∧ d ≠ ' ' := by
      cases w with
      | nil => exact ⟨c, rest, rfl, hne rfl⟩
      | cons d w => exact ⟨d, w ++ c :: rest, rfl, (hw d (by simp)).1⟩
    obtain ⟨d, ds, hd, hdne⟩ := hstop
    rw [hd, takeWhile_until (by simp) (by simpa using hdne), List.length_replicate]
  have hdrop : (pre ++ (List.replicate n ' ' ++ (w ++ c :: rest))).drop (pre.length + n) =
      w ++ c :: rest := by
    rw [← List.append_assoc, List.drop_left' (by simp)]
  have hword : ((w ++ c :: rest).takeWhile fun c => c ≠ '\x00' && c ≠ ' ') = w := by
    apply takeWhile_until
    · intro x hx
      simpa [and_comm] using hw x hx
    · obtain rfl | rfl := hc <;> rfl
  have hlen : (pre ++ (List.replicate n ' ' ++ w)).length = pre.length + n + w.length := by
    simp [Nat.add_assoc]
  have hsplit : ∀ c, pre ++ (List.replicate n ' ' ++ (w ++ c :: rest)) =
      pre ++ (List.replicate n ' ' ++ w) ++ c :: rest := by
    simp
  rw [parseConfigStringAt, List.drop_left, hblanks, hdrop, hword, hsplit, hsplit, ← hlen,
    List.getElem?_append_right le_rfl, Nat.sub_self, List.getElem?_cons_zero,
    List.set_append_right _ _ le_rfl, Nat.sub_self, List.set_cons_zero]
  obtain rfl | rfl := hc <;> rfl

theorem cString_word (hw : PlainWord w) :
    cString (pre ++ (.replicate n ' ' ++ (w ++ '\x00' :: rest))) (pre.length + n) = w := by
  rw [cString, ← List.append_assoc, List.drop_left' (by simp)]
  exact takeWhile_until (fun c hc => by simpa using (hw c hc).2) rfl

/-- What a list of words does to the lists. -/
def fillLists (connect : List Char → Except ErrorCode C) :
    List (List Char) → List (List C) → Except ErrorCode Unit × List (List C)
  | [], lists => (.ok (), lists)
  | w :: ws, lists =>
    if w = ['|', '|'] then fillLists connect ws (lists ++ [[]])
    else if w = ['&', '&'] then fillLists connect ws lists
    else
      match connect w with
      | .error e => (.error e, lists)
      | .ok c => fillLists connect ws (lists.modify (lists.length - 1) (· ++ [c]))

/-- The words that are found: a blank at the end counts for an empty one. -/
def foundWords (ws : List (List Char)) (s : List Char) : List (List Char) :=
  if s.getLast? = some ' ' then ws ++ [[]] else ws

/-- The rest of a line is read as these words, and what stands before it stays. -/
def ReadsLine (connect : List Char → Except ErrorCode C) (fuel : ℕ) (cfgline : Option ℕ)
    (buf : List Char) (ws : List (List Char)) (pre : List Char) : Prop :=
  ∀ lists, ∃ tail, parseConfigLineFrom connect fuel cfgline lists buf =
    ⟨(fillLists connect ws lists).1, (fillLists connect ws lists).2, pre ++ tail⟩

variable {fuel : ℕ} {ws : List (List Char)} {s q tail : List Char}

theorem reads_line_end : ReadsLine connect (fuel + 1) none (q ++ tail) [] q := by
  intro lists
  exact ⟨tail, rfl⟩

theorem reads_line_word (hw : PlainWord w) {c : Char} (hc : c = ' ' ∨ c = '\x00')
    (hne : w = [] → c ≠ ' ')
    (hq : pre ++ (.replicate n ' ' ++ (w ++ '\x00' :: rest)) = q ++ tail)
    (hrest : ReadsLine connect fuel (if c = ' ' then some (pre.length + n + w.length + 1) else none)
      (pre ++ (.replicate n ' ' ++ (w ++ '\x00' :: rest))) ws q) :
    ReadsLine connect (fuel + 1) (some pre.length) (pre ++ (.replicate n ' ' ++ (w ++ c :: rest)))
      (w :: ws) q := by
  intro lists
  rw [parseConfigLineFrom, parseConfigStringAt_word n hw hc hne]
  generalize (if c = ' ' then some (pre.length + n + w.length + 1) else none) = next at hrest ⊢
  simp only [cString_word hw, fillLists]
  split_ifs
  · exact hrest _
  · exact hrest _
  · cases connect w with
    | error e => exact ⟨tail, by rw [hq]⟩
    | ok c => exact hrest _

theorem spaced_ne_nil (hs : Spaced ws s) (hws : ∀ w ∈ ws, w ≠ []) : s ≠ [] := by
  cases hs with
  | last before after w => simp [hws w (by simp)]
  | cons before w hs => simp

theorem getLast_word (hw : PlainWord w) (hne : w ≠ []) (before : List Char) :
    (before ++ w).getLast? ≠ some ' ' := by
  rw [List.getLast?_append_of_ne_nil _ hne, List.getLast?_eq_getLast_of_ne_nil hne]
  intro h
  exact (hw _ (List.getLast_mem hne)).1 (Option.some.inj h)

theorem plainWord_nil : PlainWord [] := by
  intro c hc
  cases hc

theorem foundWords_word (hw : PlainWord w) (hne : w ≠ []) (before : List Char) :
    foundWords [w] (before ++ w) = [w] := if_neg (getLast_word hw hne before)

theorem foundWords_cons (hs : s ≠ []) (before : List Char) :
    foundWords (w :: ws) (before ++ ' ' :: s) = w :: foundWords ws s := by
  have hlast : (before ++ ' ' :: s).getLast? = s.getLast? := by
    rw [List.append_cons, List.getLast?_append_of_ne_nil _ hs]
  rw [foundWords, hlast, foundWords]
  split_ifs
  · rfl
  · rfl

theorem foundWords_blank (before : List Char) (after : ℕ) :
    foundWords ws (before ++ .replicate (after + 1) ' ') = ws ++ [[]] := by
  rw [List.replicate_succ', ← List.append_assoc, foundWords, List.getLast?_concat, if_pos rfl]

theorem ReadsLine.weaken {cfgline : Option ℕ}
    (h : ReadsLine connect fuel cfgline buf ws (pre ++ tail)) :
    ReadsLine connect fuel cfgline buf ws pre := by
  intro lists
  obtain ⟨rest, hrest⟩ := h lists
  exact ⟨tail ++ rest, by rw [hrest, List.append_assoc]⟩

theorem reads_line_cut (hw : PlainWord w) (hne : w ≠ [])
    (hrest : ReadsLine connect fuel (some (pre ++ (.replicate n ' ' ++ (w ++ ['\x00']))).length)
      (pre ++ (.replicate n ' ' ++ (w ++ ['\x00'])) ++ rest) ws
      (pre ++ (.replicate n ' ' ++ (w ++ ['\x00'])))) :
    ReadsLine connect (fuel + 1) (some pre.length) (pre ++ (.replicate n ' ' ++ (w ++ ' ' :: rest)))
      (w :: ws) (pre ++ (.replicate n ' ' ++ (w ++ ['\x00']))) := by
  have hq : pre ++ (List.replicate n ' ' ++ (w ++ '\x00' :: rest)) =
      pre ++ (List.replicate n ' ' ++ (w ++ ['\x00'])) ++ rest := by
    simp
  have hlen : (pre ++ (List.replicate n ' ' ++ (w ++ ['\x00']))).length =
      pre.length + n + w.length + 1 := by
    simp [Nat.add_assoc]
  refine reads_line_word hw (Or.inl rfl) (fun h => absurd h hne) hq ?_
  rw [if_pos rfl, hq, ← hlen]
  exact hrest

/-- Blanks at the end are read as an empty word. -/
theorem reads_line_blanks (after : ℕ) :
    ReadsLine connect (fuel + 2) (some pre.length) (pre ++ (.replicate after ' ' ++ ['\x00'])) [[]]
      pre := by
  apply reads_line_word (c := '\x00') (w := []) plainWord_nil (Or.inr rfl) (fun _ => by decide) rfl
  exact reads_line_end

theorem reads_line_single (hw : PlainWord w) (hne : w ≠ []) :
    ReadsLine connect (fuel + 2) (some pre.length)
      (pre ++ (.replicate n ' ' ++ (w ++ ['\x00']))) [w]
      (pre ++ (.replicate n ' ' ++ (w ++ ['\x00']))) := by
  refine reads_line_word hw (Or.inr rfl) (fun h => absurd h hne) (List.append_nil _).symm ?_
  intro lists
  exact ⟨[], by rw [List.append_nil]; rfl⟩

theorem reads_line_spaced (hs : Spaced ws s) (hws : ∀ w ∈ ws, PlainWord w ∧ w ≠ []) :
    ∀ (pre : List Char) (fuel : ℕ), s.length + 2 ≤ fuel →
      ReadsLine connect fuel (some pre.length) (pre ++ (s ++ ['\x00'])) (foundWords ws s) pre := by
  induction hs with
  | last before after w =>
    obtain ⟨hw, hne⟩ := hws w (by simp)
    have hpos := List.length_pos_of_ne_nil hne
    intro pre fuel hfuel
    rw [List.length_append, List.length_append] at hfuel
    obtain ⟨fuel, rfl⟩ : ∃ k, fuel = k + 3 := ⟨fuel - 3, by omega⟩
    cases after with
    | zero =>
      rw [List.replicate_zero, List.append_nil, foundWords_word hw hne, List.append_assoc]
      exact (reads_line_single hw hne).weaken
    | succ after =>
      rw [foundWords_blank, List.replicate_succ, List.append_assoc, List.append_assoc,
        List.cons_append]
      exact (reads_line_cut hw hne (reads_line_blanks after)).weaken
  | @cons before w ws s hs ih =>
    obtain ⟨hw, hne⟩ := hws w (by simp)
    intro pre fuel hfuel
    obtain ⟨fuel, rfl⟩ : ∃ k, fuel = k + 1 := ⟨fuel - 1, by omega⟩
    have hrest := ih (fun w hw => hws w (List.mem_cons_of_mem _ hw))
      (pre ++ (.replicate before ' ' ++ (w ++ ['\x00']))) fuel (by simp at hfuel; omega)
    have hs0 := spaced_ne_nil hs fun w hw => (hws w (List.mem_cons_of_mem _ hw)).2
    rw [foundWords_cons hs0, List.append_assoc, List.append_assoc, List.cons_append]
    exact (reads_line_cut hw hne hrest).weaken

theorem cString_zero (hw : ∀ c ∈ w, c ≠ '\x00') : cString (w ++ '\x00' :: tail) 0 = w :=
  takeWhile_until (fun c hc => by simpa using hw c hc) rfl

/-- No blank stands behind the first word. -/
def Uncut (s : List Char) : Prop := ∀ c ∈ s.dropWhile (· = ' '), c ≠ ' '

theorem dropWhile_blanks_word (hw : PlainWord w) (hne : w ≠ []) (n : ℕ) :
    (List.replicate n ' ' ++ (w ++ rest)).dropWhile (· = ' ') = w ++ rest := by
  rw [List.dropWhile_append_of_pos (by simp)]
  cases w with
  | nil => exact absurd rfl hne
  | cons c w => exact List.dropWhile_cons_of_neg (by simpa using (hw c (by simp)).1)

theorem uncut_word (hw : PlainWord w) (hne : w ≠ []) (n : ℕ) : Uncut (.replicate n ' ' ++ w) := by
  have h := @dropWhile_blanks_word w [] hw hne n
  rw [List.append_nil] at h
  intro c hc
  rw [h] at hc
  exact (hw c hc).1

theorem not_uncut_blank (hw : PlainWord w) (hne : w ≠ []) (n : ℕ) :
    ¬ Uncut (.replicate n ' ' ++ (w ++ ' ' :: rest)) := by
  intro h
  rw [Uncut, dropWhile_blanks_word hw hne] at h
  exact h ' ' (by simp) rfl

theorem cString_cut (hw : PlainWord w) (n : ℕ) :
    cString (.replicate n ' ' ++ (w ++ ['\x00']) ++ tail) 0 = .replicate n ' ' ++ w := by
  rw [← List.append_assoc, List.append_assoc, List.singleton_append]
  refine cString_zero fun c hc => ?_
  obtain hc | hc := List.mem_append.mp hc
  · rw [List.eq_of_mem_replicate hc]
    decide
  · exact (hw c hc).2

theorem exists_line_cut (hw : PlainWord w) (hne : w ≠ []) {found : List (List Char)}
    (h : ∀ fuel, s.length + 2 ≤ fuel + 1 →
      ReadsLine connect (fuel + 1) (some 0) (s ++ ['\x00']) found
        (.replicate n ' ' ++ (w ++ ['\x00'])))
    (hs : s = .replicate n ' ' ++ (w ++ ' ' :: rest)) :
    ∃ line, parseConfigLineAt connect (setConnectionString s) =
        ⟨(fillLists connect found [[]]).1, (fillLists connect found [[]]).2, line⟩ ∧
      (getConnectionString line = s ↔ Uncut s) := by
  obtain ⟨tail, htail⟩ := h (s.length + 1) (by omega) [[]]
  refine ⟨_, by rw [parseConfigLineAt, setConnectionString, List.length_append]; exact htail, ?_⟩
  rw [getConnectionString, cString_cut hw]
  constructor
  · intro heq
    have hlen := congrArg List.length (heq.trans hs)
    simp only [List.length_append, List.length_cons] at hlen
    omega
  · intro huncut
    exact absurd (hs ▸ huncut) (not_uncut_blank hw hne n)

/-- A line is read as its words, and stays as it was just if it has no blank behind a word. -/
theorem parseConfigLineAt_spaced (hs : Spaced ws s) (hws : ∀ w ∈ ws, PlainWord w ∧ w ≠ []) :
    ∃ line, parseConfigLineAt connect (setConnectionString s) =
        ⟨(fillLists connect (foundWords ws s) [[]]).1,
          (fillLists connect (foundWords ws s) [[]]).2, line⟩ ∧
      (getConnectionString line = s ↔ Uncut s) := by
  cases hs with
  | last before after w =>
    obtain ⟨hw, hne⟩ := hws w (by simp)
    have hpos := List.length_pos_of_ne_nil hne
    cases after with
    | zero =>
      have hline : List.replicate before ' ' ++ w ++ ['\x00'] =
          [] ++ (List.replicate before ' ' ++ (w ++ ['\x00'])) := List.append_assoc _ _ _
      obtain ⟨tail, htail⟩ := @reads_line_single C connect [] w before
        (List.replicate before ' ' ++ w).length hw hne [[]]
      rw [List.replicate_zero, List.append_nil, foundWords_word hw hne]
      refine ⟨_, by
        rw [parseConfigLineAt, setConnectionString, List.length_append, hline]; exact htail, ?_⟩
      rw [getConnectionString, List.nil_append, cString_cut hw]
      exact iff_of_true rfl (uncut_word hw hne before)
    | succ after =>
      rw [foundWords_blank]
      have hline : List.replicate before ' ' ++ w ++ List.replicate (after + 1) ' ' =
          List.replicate before ' ' ++ (w ++ ' ' :: List.replicate after ' ') := by
        rw [List.replicate_succ, List.append_assoc]
      refine exists_line_cut hw hne (fun fuel hfuel => ?_) hline
      obtain ⟨fuel, rfl⟩ : ∃ k, fuel = k + 2 := ⟨fuel - 2, by simp at hfuel; omega⟩
      rw [hline, List.append_assoc, List.append_assoc, List.cons_append]
      exact @reads_line_cut C connect [] w _ before _ _ hw hne (reads_line_blanks after)
  | @cons before w ws s hs =>
    obtain ⟨hw, hne⟩ := hws w (by simp)
    have hs0 := spaced_ne_nil hs fun w hw => (hws w (List.mem_cons_of_mem _ hw)).2
    rw [foundWords_cons hs0]
    refine exists_line_cut hw hne (fun fuel hfuel => ?_) (List.append_assoc _ _ _)
    have hrest := @reads_line_spaced C connect _ _ hs
      (fun w hw => hws w (List.mem_cons_of_mem _ hw))
      ([] ++ (.replicate before ' ' ++ (w ++ ['\x00']))) fuel (by simp at hfuel; omega)
    rw [List.append_assoc, List.append_assoc, List.cons_append]
    exact @reads_line_cut C connect [] w _ before _ _ hw hne hrest

end

section

variable {C : Type*} {connect : List Char → Except ErrorCode C} {conn : ServerAddress → C}
  {rest : List (List Char)} {lists : List (List C)} {cur : List C}

theorem fillLists_address (a : ServerAddress) (ha : connect a.text = .ok (conn a)) :
    fillLists connect (a.text :: rest) (lists ++ [cur]) =
      fillLists connect rest (lists ++ [cur ++ [conn a]]) := by
  have hmodify : (lists ++ [cur]).modify lists.length (· ++ [conn a]) =
      lists ++ [cur ++ [conn a]] := by
    simp [List.modify_eq_take_cons_drop]
  simp [fillLists, a.ne_or, a.ne_and, ha, hmodify]

theorem fillLists_group (g : List ServerAddress) (hg : ∀ a ∈ g, connect a.text = .ok (conn a)) :
    ∀ cur, fillLists connect (groupWords g ++ rest) (lists ++ [cur]) =
      fillLists connect rest (lists ++ [cur ++ g.map conn]) := by
  induction g with
  | nil => simp [groupWords]
  | cons a g ih =>
    intro cur
    have ha := hg a (by simp)
    cases g with
    | nil => exact fillLists_address a ha
    | cons b g =>
      have hwords : groupWords (a :: b :: g) = a.text :: ['&', '&'] :: groupWords (b :: g) := rfl
      have hskip : ∀ lists : List (List C),
          fillLists connect (['&', '&'] :: (groupWords (b :: g) ++ rest)) lists =
            fillLists connect (groupWords (b :: g) ++ rest) lists := fun _ => rfl
      rw [hwords, List.cons_append, List.cons_append, fillLists_address a ha, hskip,
        ih fun b hb => hg b (List.mem_cons_of_mem _ hb)]
      simp

theorem fillLists_groups (gs : List (List ServerAddress)) (hne : gs ≠ [])
    (hgs : ∀ g ∈ gs, ∀ a ∈ g, connect a.text = .ok (conn a)) :
    ∀ lists, fillLists connect (List.intercalate [['|', '|']] (gs.map groupWords) ++ rest)
        (lists ++ [[]]) =
      fillLists connect rest (lists ++ gs.map (·.map conn)) := by
  induction gs with
  | nil => exact absurd rfl hne
  | cons g gs ih =>
    intro lists
    have hg := hgs g (by simp)
    cases gs with
    | nil => simpa using fillLists_group g hg []
    | cons g' gs =>
      have hbars : ∀ (ws : List (List Char)) (lists : List (List C)),
          fillLists connect (['|', '|'] :: ws) lists = fillLists connect ws (lists ++ [[]]) :=
        fun _ _ => rfl
      rw [List.map_cons, List.map_cons, List.intercalate_cons_cons, List.append_assoc,
        List.append_assoc, fillLists_group g hg, List.singleton_append, hbars, ← List.map_cons,
        ih (by simp) fun g hg => hgs g (List.mem_cons_of_mem _ hg)]
      simp

end

theorem foundWords_of_uncut {ws : List (List Char)} {s : List Char} (hs : Spaced ws s)
    (hws : ∀ w ∈ ws, PlainWord w ∧ w ≠ []) (h : Uncut s) : foundWords ws s = ws := by
  cases hs with
  | last before after w =>
    obtain ⟨hw, hne⟩ := hws w (by simp)
    cases after with
    | zero => rw [List.replicate_zero, List.append_nil, foundWords_word hw hne]
    | succ after =>
      rw [List.replicate_succ, List.append_assoc] at h
      exact absurd h (not_uncut_blank hw hne before)
  | cons before w hs =>
    obtain ⟨hw, hne⟩ := hws w (by simp)
    rw [List.append_assoc] at h
    exact absurd h (not_uncut_blank hw hne before)

theorem plain_groupWords (g : List ServerAddress) : ∀ w ∈ groupWords g, PlainWord w ∧ w ≠ [] := by
  induction g with
  | nil => simp [groupWords]
  | cons a g ih =>
    intro w hw
    have hwords : groupWords (a :: g) = [a.text] ∨
        groupWords (a :: g) = a.text :: ['&', '&'] :: groupWords g := by
      cases g with
      | nil => exact Or.inl rfl
      | cons b g => exact Or.inr rfl
    obtain h | h := hwords
    · rw [h, List.mem_singleton] at hw
      subst hw
      exact ⟨a.plain, a.ne_nil⟩
    · rw [h] at hw
      obtain _ | ⟨_, _ | ⟨_, hw⟩⟩ := hw
      · exact ⟨a.plain, a.ne_nil⟩
      · exact ⟨by simp [PlainWord], by simp⟩
      · exact ih w hw

theorem ConnectionLine.plain_words (l : ConnectionLine) : ∀ w ∈ l.words, PlainWord w ∧ w ≠ [] := by
  rw [ConnectionLine.words]
  induction l.groups with
  | nil => simp
  | cons g gs ih =>
    cases gs with
    | nil => simpa using plain_groupWords g
    | cons g' gs =>
      intro w hw
      rw [List.map_cons, List.map_cons, List.intercalate_cons_cons, List.mem_append,
        List.mem_append, ← List.map_cons] at hw
      obtain (hw | hw) | hw := hw
      · exact plain_groupWords g w hw
      · rw [List.mem_singleton] at hw
        subst hw
        exact ⟨by simp [PlainWord], by simp⟩
      · exact ih w hw

section

variable {C : Type*} (connect : List Char → Except ErrorCode C) (conn : ServerAddress → C)
  (l : ConnectionLine) {s : List Char}

theorem fillLists_words (hconnect : ∀ g ∈ l.groups, ∀ a ∈ g, connect a.text = .ok (conn a))
    (rest : List (List Char)) :
    fillLists connect (l.words ++ rest) [[]] =
      fillLists connect rest (l.groups.map (·.map conn)) :=
  fillLists_groups l.groups l.groups_ne hconnect []

/-- The lists are the groups just if the line does not end with a blank. -/
theorem connection_lists_iff
    (hconnect : ∀ g ∈ l.groups, ∀ a ∈ g, connect a.text = .ok (conn a)) (hs : Spaced l.words s) :
    (∃ line, parseConfigLineAt connect (setConnectionString s) =
      ⟨.ok (), l.groups.map (·.map conn), line⟩) ↔ s.getLast? ≠ some ' ' := by
  obtain ⟨line, hline, -⟩ := @parseConfigLineAt_spaced C connect _ _ hs l.plain_words
  rw [hline]
  by_cases hlast : s.getLast? = some ' '
  · have hne : l.groups.map (·.map conn) ≠ [] := by simpa using l.groups_ne
    rw [foundWords, if_pos hlast, fillLists_words connect conn l hconnect]
    generalize l.groups.map (·.map conn) = lists at hne ⊢
    refine iff_of_false ?_ (not_not.mpr hlast)
    rintro ⟨line', heq⟩
    rw [ConfigResult.mk.injEq] at heq
    obtain ⟨hret, hlists, -⟩ := heq
    revert hret hlists
    cases hempty : connect [] with
    | error e => simp [fillLists, hempty]
    | ok c =>
      intro _ hlists
      have hpos := List.length_pos_of_ne_nil hne
      have hlast := congrArg (·[lists.length - 1]?) hlists
      simp [fillLists, hempty, hpos] at hlast
  · have hwords := fillLists_words connect conn l hconnect []
    rw [List.append_nil] at hwords
    rw [foundWords, if_neg hlast, hwords]
    exact iff_of_true ⟨line, rfl⟩ hlast

/-- A line is read as its groups, and is still there afterwards, just if no blank stands behind
the first word. -/
theorem connection_string_iff
    (hconnect : ∀ g ∈ l.groups, ∀ a ∈ g, connect a.text = .ok (conn a)) (hs : Spaced l.words s) :
    (∃ line, parseConfigLineAt connect (setConnectionString s) =
        ⟨.ok (), l.groups.map (·.map conn), line⟩ ∧ getConnectionString line = s) ↔ Uncut s := by
  obtain ⟨line, hline, hiff⟩ := @parseConfigLineAt_spaced C connect _ _ hs l.plain_words
  rw [hline]
  constructor
  · rintro ⟨line', heq, hget⟩
    rw [ConfigResult.mk.injEq] at heq
    exact hiff.mp (heq.2.2 ▸ hget)
  · intro huncut
    have hwords := fillLists_words connect conn l hconnect []
    rw [List.append_nil] at hwords
    rw [foundWords_of_uncut hs l.plain_words huncut, hwords]
    exact ⟨line, rfl, hiff.mpr huncut⟩

end

def serverA : ServerAddress := ⟨['a'], by decide, by simp, by decide, by decide⟩
def serverB : ServerAddress := ⟨['b'], by decide, by simp, by decide, by decide⟩

theorem connection_string_one : ∃ line,
    parseConfigLineAt Except.ok (setConnectionString [' ', 'a']) =
      ⟨.ok (), [[['a']]], line⟩ ∧ getConnectionString line = [' ', 'a'] :=
  (connection_string_iff Except.ok ServerAddress.text ⟨[[serverA]], by simp, by simp⟩
    (fun _ _ _ _ => rfl) (Spaced.last 1 0 ['a'])).mpr (by simp [Uncut])

/-- A blank at the end adds an empty address. -/
theorem connection_string_two :
    Spaced (ConnectionLine.words ⟨[[serverA], [serverB]], by simp, by simp⟩)
        ['a', ' ', '|', '|', ' ', 'b', ' '] ∧
      ¬ ∃ line, parseConfigLineAt Except.ok
          (setConnectionString ['a', ' ', '|', '|', ' ', 'b', ' ']) =
          ⟨.ok (), [[['a']], [['b']]], line⟩ ∧
        getConnectionString line = ['a', ' ', '|', '|', ' ', 'b', ' '] := by
  constructor
  · exact Spaced.cons 0 ['a'] (Spaced.cons 0 ['|', '|'] (Spaced.last 0 1 ['b']))
  · rintro ⟨line, heq, -⟩
    have h : (parseConfigLineAt Except.ok
        (setConnectionString ['a', ' ', '|', '|', ' ', 'b', ' '])).orList = [[['a']], [['b']]] :=
      congrArg ConfigResult.orList heq
    revert h
    decide

end LibPrelude
