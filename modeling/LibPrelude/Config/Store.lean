import LibPrelude.Config.Lines

/-! # A configuration in memory

The lines of a configuration are searched for a section or for an entry, and changed one by one.
The search for an entry returns zero and gives the line in a variable of the caller. When a
section is wanted it ends at the first section that it meets, wherever it began.
-/

namespace LibPrelude

structure Config where
  content : List Line
  needSync : Bool

/-- The first section with a name and value among the lines from the `i`th on. -/
def searchSectionFrom (wentry wvalue : Option Line) :
    Variables → ℕ → List Line → Except LineFailure ℕ
  | _, _, [] => .error .error
  | vars, i, line :: lines =>
    if isLineCommented line ∨ ¬ isSection line then
      searchSectionFrom wentry wvalue vars (i + 1) lines
    else
      match parseSectionBuffer vars line true with
      | .error .fault => .error .fault
      | .error .error => searchSectionFrom wentry wvalue vars (i + 1) lines
      | .ok (entry, value, vars) =>
        match entry, wentry with
        | some entry, some wentry' =>
          if strcasecmp entry wentry' ∧ strcasecmp (value.getD []) (wvalue.getD []) then .ok i
          else searchSectionFrom wentry wvalue vars (i + 1) lines
        | _, _ => .error .fault

def searchSection (vars : Variables) (cfg : Config) (name : Line) (i : ℕ) :
    Except LineFailure ℕ :=
  -- without lines there is no array of them
  if cfg.content = [] then .error .error
  else
    match parseSectionBuffer vars name true with
    | .error e => .error e
    | .ok (wentry, wvalue, vars) => searchSectionFrom wentry wvalue vars i (cfg.content.drop i)

def searchEntryFrom (wanted : Bool) (entry : Line) :
    Variables → ℕ → List Line → Except LineFailure (ℕ × ℕ)
  | _, _, [] => .error .error
  | vars, i, line :: lines =>
    if wanted ∧ isSection line then .error .error
    else
      match parseBuffer vars line with
      | .error .fault => .error .fault
      | .error .error => searchEntryFrom wanted entry vars (i + 1) lines
      | .ok (eout, _, vars) =>
        if eout = some entry then .ok (0, i)
        else searchEntryFrom wanted entry vars (i + 1) lines

/-- The return value and the index of a search that begins at an index. -/
def searchEntry (vars : Variables) (cfg : Config) (name : Option Line) (entry : Line)
    (index : ℕ) : Except LineFailure (ℕ × ℕ) :=
  searchEntryFrom name.isSome entry vars index (cfg.content.drop index)

/-- Lines are deleted; whether an array may be made empty is up to the C library. -/
def opDeleteLine (reallocEmpty : Bool) (cfg : Config) (start stop : ℕ) :
    Except LineFailure Unit × Config :=
  if cfg.content = [] then (.ok (), cfg)
  else if stop ≤ start ∨ cfg.content.length < stop then (.error .error, cfg)
  else
    let content := cfg.content.take start ++ cfg.content.drop stop
    (if content = [] ∧ ¬ reallocEmpty then .error .error else .ok (), { cfg with content })

/-- The next section from the `i`th line on. -/
def nextSection : ℕ → List Line → ℕ
  | i, [] => i
  | i, line :: lines => if isSection line then i else nextSection (i + 1) lines

def skipBlank (content : List Line) : ℕ → ℕ
  | start + 2 =>
    if content[start + 1]? = some [] ∧ content[start]? = some [] then
      skipBlank content (start + 1)
    else start + 2
  | start => start

/-- Delete an entry, or a section when no entry is given. -/
def configDel (reallocEmpty : Bool) (vars : Variables) (cfg : Config) (name entry : Option Line) :
    Except LineFailure Unit × Config :=
  match entry, name with
  | none, none => (.error .fault, cfg)
  | none, some name =>
    match searchSection vars cfg name 0 with
    | .error e => (.error e, cfg)
    | .ok start =>
      let stop := nextSection (start + 1) (cfg.content.drop (start + 1))
      opDeleteLine reallocEmpty { cfg with needSync := true } (skipBlank cfg.content start) stop
  | some entry, name =>
    match searchEntry vars cfg name entry 0 with
    | .error e => (.error e, cfg)
    | .ok (start, _) =>
      opDeleteLine reallocEmpty { cfg with needSync := true } start (start + 1)

section

variable {entry : Line} {lines : List Line} {i : ℕ}

/-- The search takes a line for the wanted section. -/
def takes (vars : Variables) (wentry wvalue : Option Line) (line : Line) : Bool :=
  isSection line && match parseSectionBuffer vars line true, wentry with
    | .ok (some entry, value, _), some wentry =>
      strcasecmp entry wentry && strcasecmp (value.getD []) (wvalue.getD [])
    | _, _ => false

def lineVars (vars : Variables) (line : Line) : Variables :=
  match isSection line, parseSectionBuffer vars line true with
  | true, .ok (_, _, vars) => vars
  | _, _ => vars

def sectionVars (vars : Variables) (lines : List Line) : Variables := lines.foldl lineVars vars

theorem not_isLineCommented_of_isSection {line : Line} (h : isSection line) :
    ¬ isLineCommented line := by
  induction line with
  | nil => cases h
  | cons b line ih =>
    rw [isLineCommented, List.dropWhile_cons]
    rw [isSection, List.dropWhile_cons] at h
    by_cases hb : isBlank b
    · rw [if_pos hb]
      rw [if_pos (by simp [hb])] at h
      exact ih (by simp_all [isSection])
    · rw [if_neg hb]
      intro hc
      obtain rfl : b = 35 := by simpa using hc
      rw [if_neg (by decide)] at h
      cases h

theorem searchSectionFrom_cases {name : Line} {wentry : Option Line}
    (hname : entryOf (sectionText name) = wentry) (vars : Variables) (wvalue : Option Line)
    (i : ℕ) (line : Line) :
    ((takes vars wentry wvalue line ∧ ¬ Incomparable name line) ∧ ∀ lines,
      searchSectionFrom wentry wvalue vars i (line :: lines) = .ok i) ∨
    (Incomparable name line ∧ ∀ lines,
      searchSectionFrom wentry wvalue vars i (line :: lines) = .error .fault) ∨
    ((¬ takes vars wentry wvalue line ∧ ¬ Incomparable name line) ∧ ∀ lines,
      searchSectionFrom wentry wvalue vars i (line :: lines) =
        searchSectionFrom wentry wvalue (lineVars vars line) (i + 1) lines) := by
  by_cases hs : isSection line
  · have hc := not_isLineCommented_of_isSection hs
    have hskip : ¬ (isLineCommented line ∨ ¬ isSection line) := by simp [hc, hs]
    simp only [searchSectionFrom, if_neg hskip]
    unfold takes lineVars
    rw [hs, Bool.true_and]
    rcases parseSectionBuffer_cases vars line true with
      ⟨h, hp⟩ | ⟨h, hp⟩ | ⟨hne, -, value, vars', hp⟩
    · rw [hp]
      exact .inr (.inr ⟨⟨by simp, fun hl => hl.2.2.1 h⟩, fun _ => rfl⟩)
    · rw [hp]
      refine .inr (.inl ⟨⟨hc, hs, ?_, .inl h.2⟩, fun _ => rfl⟩)
      intro hnil
      rw [hnil] at h
      cases h.1
    · rw [hp]
      cases he : entryOf (sectionText line) with
      | none => exact .inr (.inl ⟨⟨hc, hs, hne, .inl he⟩, fun _ => rfl⟩)
      | some entry =>
        cases wentry with
        | none => exact .inr (.inl ⟨⟨hc, hs, hne, .inr hname⟩, fun _ => rfl⟩)
        | some wentry =>
          have hline : ¬ Incomparable name line := by
            rintro ⟨-, -, -, h | h⟩
            · cases he.symm.trans h
            · cases hname.symm.trans h
          dsimp only
          by_cases heq : strcasecmp entry wentry ∧ strcasecmp (value.getD []) (wvalue.getD [])
          · exact .inl ⟨⟨by simp [heq], hline⟩, fun _ => if_pos heq⟩
          · exact .inr (.inr ⟨⟨by simpa using heq, hline⟩, fun _ => if_neg heq⟩)
  · simp only [searchSectionFrom, if_pos (Or.inr hs : isLineCommented line ∨ ¬ isSection line)]
    unfold takes lineVars
    rw [Bool.eq_false_of_not_eq_true hs]
    exact .inr (.inr ⟨⟨by simp, fun hl => hs hl.2.1⟩, fun _ => rfl⟩)

def visible (wanted : Bool) (lines : List Line) : List Line :=
  lines.takeWhile fun line => ¬ (wanted ∧ isSection line)

/-- A line that the search for an entry passes over. -/
def Passed (entry line : Line) : Prop := ¬ Faulty line ∧ entryOf line ≠ some entry

/-- What the search for an entry among visible lines comes to. -/
inductive Searched (entry : Line) : ℕ → List Line → Except LineFailure (ℕ × ℕ) → Prop
  | absent {i : ℕ} : Searched entry i [] (.error .error)
  | found {i : ℕ} {line : Line} {lines : List Line} : entryOf line = some entry →
      Searched entry i (line :: lines) (.ok (0, i))
  | fault {i : ℕ} {line : Line} {lines : List Line} : Faulty line →
      Searched entry i (line :: lines) (.error .fault)
  | next {i : ℕ} {line : Line} {lines : List Line} {r : Except LineFailure (ℕ × ℕ)} :
      Passed entry line → Searched entry (i + 1) lines r → Searched entry i (line :: lines) r

theorem searchEntryFrom_searched (wanted : Bool) (entry : Line) (vars : Variables) (i : ℕ)
    (lines : List Line) :
    Searched entry i (visible wanted lines) (searchEntryFrom wanted entry vars i lines) := by
  induction lines generalizing vars i with
  | nil => exact .absent
  | cons line lines ih =>
    rw [searchEntryFrom, visible, List.takeWhile_cons]
    by_cases hstop : wanted ∧ isSection line
    · rw [if_pos hstop, if_neg (by simpa using hstop)]
      exact .absent
    · rw [if_neg hstop, if_pos (decide_eq_true hstop)]
      rcases parseBuffer_cases vars line with ⟨rfl, h⟩ | ⟨hf, h⟩ | ⟨-, hf, value, vars', h⟩
      · rw [h]
        exact .next ⟨by decide, nofun⟩ (ih vars (i + 1))
      · rw [h]
        exact .fault hf
      · rw [h]
        dsimp only
        split_ifs with heq
        · exact .found heq
        · exact .next ⟨hf, heq⟩ (ih vars' (i + 1))

theorem Searched.of_ok {r : ℕ × ℕ} (h : Searched entry i lines (.ok r)) :
    r = (0, i + lines.findIdx (entryOf · = some entry)) ∧
      ∃ line ∈ lines, entryOf line = some entry := by
  generalize hr : Except.ok r = r' at h
  induction h with
  | absent => cases hr
  | found heq =>
    cases hr
    exact ⟨by simp [List.findIdx_cons, heq], _, List.mem_cons_self, heq⟩
  | fault => cases hr
  | next hp _ ih =>
    obtain ⟨rfl, line, hmem, heq⟩ := ih hr
    refine ⟨?_, line, List.mem_cons_of_mem _ hmem, heq⟩
    simp only [List.findIdx_cons, hp.2, decide_false, cond_false, Prod.mk.injEq, true_and]
    omega

theorem Searched.of_error (h : Searched entry i lines (.error .error)) :
    ∀ line ∈ lines, Passed entry line := by
  generalize hr : (.error .error : Except LineFailure (ℕ × ℕ)) = r' at h
  induction h with
  | absent => nofun
  | found => cases hr
  | fault => cases hr
  | next hp _ ih => exact List.forall_mem_cons.mpr ⟨hp, ih hr⟩

theorem Searched.of_head {line : Line} {r : Except LineFailure (ℕ × ℕ)}
    (h : Searched entry i (line :: lines) r) (heq : entryOf line = some entry) :
    r = .ok (0, i) := by
  cases h with
  | found => rfl
  | fault hf => cases heq.symm.trans hf.2
  | next hp => exact absurd heq hp.2

theorem Searched.of_passed {r : Except LineFailure (ℕ × ℕ)} (h : Searched entry i lines r)
    (hp : ∀ line ∈ lines, Passed entry line) : r = .error .error := by
  induction h with
  | absent => rfl
  | found heq => exact absurd heq (hp _ List.mem_cons_self).2
  | fault hf => exact absurd hf (hp _ List.mem_cons_self).1
  | next _ _ ih => exact ih fun l hl => hp l (List.mem_cons_of_mem _ hl)

theorem nextSection_eq : nextSection i lines =
    i + (lines.takeWhile fun line => ¬ isSection line).length := by
  induction lines generalizing i with
  | nil => rfl
  | cons line lines ih =>
    rw [nextSection, List.takeWhile_cons]
    by_cases h : isSection line
    · simp [h]
    · simp only [h, ih]
      simp
      omega

end

end LibPrelude
