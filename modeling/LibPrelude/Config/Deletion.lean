import LibPrelude.Config.Store

/-! # Deletion from a configuration

The search for an entry returns zero when it finds one, and so the line that is deleted is the
first. A section is deleted with all that follows up to the next section, and with the surplus
blank lines before it. Its line may begin with blanks; a tab among them is not skipped by the
search, which then takes the bracket for a part of the name.
-/

namespace LibPrelude

/-- What is to be deleted: an entry, of a section if one is given, or a section. -/
inductive Deletion where
  | entry (name : Option Line) (entry : Line)
  | «section» (name : Line)

def Deletion.run (reallocEmpty : Bool) (vars : Variables) (cfg : Config) :
    Deletion → Except LineFailure Unit × Config
  | .entry name key => configDel reallocEmpty vars cfg name (some key)
  | .section name => configDel reallocEmpty vars cfg (some name) none

/-- The name and the value of a section, in brackets or not, behind any blanks. -/
def sectionNamed (vars : Variables) (buf : Line) : Option (Line × Line) :=
  let text := (buf.dropWhile fun b => isBlank b ∨ b = 10 ∨ b = 91).takeWhile (· ≠ 93)
  (entryOf text).map fun name =>
    (name, (((valueOf text).map (valueResolveVariable vars)).filter (· ≠ [])).getD
      (ascii "default"))

def heads (vars : Variables) (name line : Line) : Bool :=
  isSection line && match sectionNamed vars name, sectionNamed vars line with
    | some wanted, some s => strcasecmp s.1 wanted.1 && strcasecmp s.2 wanted.2
    | _, _ => false

def sectionLine (vars : Variables) (cfg : Config) (name : Line) : Option ℕ :=
  cfg.content.findIdx? (heads vars name)

/-- The first line that holds an entry, in the section if one is given. -/
def entryLine (vars : Variables) (cfg : Config) (name : Option Line) (entry : Line) : Option ℕ :=
  match name with
  | none => cfg.content.findIdx? (entryOf · = some entry)
  | some name => (sectionLine vars cfg name).bind fun start =>
    let body := (cfg.content.drop (start + 1)).takeWhile fun line => ¬ isSection line
    (body.findIdx? (entryOf · = some entry)).map (start + 1 + ·)

/-- The lines without the blank ones at the end but for the first of them. -/
def withoutSurplus (lines : List Line) : List Line :=
  lines.take (lines.length - ((lines.reverse.takeWhile (· = [])).length - 1))

def withoutSection (content : List Line) (start : ℕ) : List Line :=
  withoutSurplus (content.take start) ++
    (content.drop (start + 1)).dropWhile fun line => ¬ isSection line

/-- Exactly what was asked for is deleted, or there is no such thing and nothing changes. -/
def DeletesExactly (vars : Variables) (cfg : Config) :
    Deletion → Except LineFailure Unit × Config → Prop
  | .entry name entry, r =>
    match entryLine vars cfg name entry with
    | some i => r = (.ok (), ⟨cfg.content.eraseIdx i, true⟩)
    | none => r = (.error .error, cfg)
  | .section name, r =>
    match sectionLine vars cfg name with
    | some start => r = (.ok (), ⟨withoutSection cfg.content start, true⟩)
    | none => r = (.error .error, cfg)

/-- A tab or a carriage return comes before a bracket. -/
def Indented (buf : Line) : Prop :=
  ((buf.dropWhile fun b => b = 10 ∨ b = 32 ∨ b = 91).dropWhile isBlank).head? ∈
    [some 10, some 91]

/-- Up to the line that begins the section no section line lacks a name, and the search takes a
line for the section just if it begins it. -/
def SectionReadable (vars : Variables) (cfg : Config) (name : Line) : Prop :=
  match parseSectionBuffer vars name true with
  | .error .error => True
  | .error .fault => cfg.content = []
  | .ok (wentry, wvalue, vars') =>
    ∀ before line after, cfg.content = before ++ line :: after →
      (∀ l ∈ before, ¬ heads vars name l) → ¬ Incomparable name line ∧
        takes (sectionVars vars' before) wentry wvalue line = heads vars name line

/-- An entry of the first line, or one that is searched for in vain; a section that the search
reads as it is; and no deletion of all lines unless an array may be made empty. -/
def ConfigDeletable (reallocEmpty : Bool) (vars : Variables) (cfg : Config) : Deletion → Prop
  | .entry none entry =>
    (∃ line rest, cfg.content = line :: rest ∧ entryOf line = some entry ∧
      (rest ≠ [] ∨ reallocEmpty)) ∨ ∀ line ∈ cfg.content, Passed entry line
  | .entry (some name) entry =>
    (∀ line ∈ cfg.content.takeWhile fun line => ¬ isSection line, Passed entry line) ∧
      entryLine vars cfg (some name) entry = none
  | .section name =>
    SectionReadable vars cfg name ∧ ∀ start ∈ sectionLine vars cfg name,
      withoutSection cfg.content start ≠ [] ∨ reallocEmpty

/-- The text of a section sets a variable. -/
def SetsVariable (line : Line) : Prop :=
  61 ∈ sectionText line ∧ ∃ name ∈ entryOf (sectionText line), name.head? = some 36

/-- Neither the section that is to be deleted nor one of the file sets a variable. -/
def Unset (cfg : Config) : Deletion → Prop
  | .entry .. => True
  | .section name =>
    ¬ SetsVariable name ∧ ∀ line ∈ cfg.content, isSection line → ¬ SetsVariable line

section

variable {reallocEmpty : Bool} {vars : Variables} {cfg : Config} {name : Option Line}
  {entry : Line} {wentry wvalue : Option Line} {content : List Line} {start i : ℕ}

theorem opDeleteLine_of_bounds (h : start < i) (hi : i ≤ cfg.content.length) :
    opDeleteLine reallocEmpty cfg start i =
      (if cfg.content.take start ++ cfg.content.drop i = [] ∧ ¬ reallocEmpty then .error .error
        else .ok (), { cfg with content := cfg.content.take start ++ cfg.content.drop i }) := by
  unfold opDeleteLine
  have hne : cfg.content ≠ [] := fun hnil => by simp [hnil] at hi; omega
  rw [if_neg hne, if_neg (by omega)]

theorem withoutSurplus_blank (lines : List Line) :
    withoutSurplus (lines ++ [[], []]) = withoutSurplus (lines ++ [[]]) := by
  have htake (n : ℕ) (h : n ≤ lines.length + 1) :
      (lines ++ [[], []]).take n = (lines ++ [[]]).take n := by
    rw [List.append_cons, List.take_append_of_le_length (by simpa using h)]
  unfold withoutSurplus
  simp only [List.length_append, List.length_cons, List.length_nil, List.reverse_append,
    List.reverse_cons, List.reverse_nil, List.nil_append, List.cons_append, List.takeWhile_cons,
    decide_true, if_true]
  rw [htake _ (by omega)]
  congr 1
  omega

theorem withoutSurplus_of_le {lines : List Line}
    (h : (lines.reverse.takeWhile (· = [])).length ≤ 1) : withoutSurplus lines = lines := by
  rw [withoutSurplus, Nat.sub_eq_zero_of_le h, Nat.sub_zero, List.take_length]

theorem take_skipBlank (h : start ≤ content.length) :
    content.take (skipBlank content start) = withoutSurplus (content.take start) := by
  induction start with
  | zero => rfl
  | succ n ih =>
    cases n with
    | zero =>
      rw [skipBlank, withoutSurplus_of_le]
      · refine (List.takeWhile_sublist _).length_le.trans ?_
        simp
      · nofun
    | succ n =>
      have htake1 : content.take (n + 1) = content.take n ++ [content[n]] := by
        rw [List.take_add_one, List.getElem?_eq_getElem (by omega), Option.toList_some]
      have htake : content.take (n + 2) = content.take n ++ [content[n], content[n + 1]] := by
        rw [List.take_add_one, htake1, List.getElem?_eq_getElem (by omega), Option.toList_some,
          List.append_assoc, List.singleton_append]
      rw [skipBlank]
      split_ifs with hblank
      · have h1 : content[n + 1] = [] := List.getElem_of_getElem? hblank.1 |>.2
        have h0 : content[n] = [] := List.getElem_of_getElem? hblank.2 |>.2
        rw [ih (by omega), htake, htake1, h0, h1, withoutSurplus_blank]
      · rw [withoutSurplus_of_le]
        rw [htake, List.reverse_append]
        by_cases h1 : content[n + 1] = []
        · have h0 : content[n] ≠ [] := fun h0 => hblank
            ⟨List.getElem?_eq_some_iff.mpr ⟨by omega, h1⟩,
              List.getElem?_eq_some_iff.mpr ⟨by omega, h0⟩⟩
          simp [h1, h0]
        · simp [h1]

theorem skipBlank_le (content : List Line) (start : ℕ) : skipBlank content start ≤ start := by
  fun_induction skipBlank content start with
  | case1 start h ih => omega
  | case2 => rfl
  | case3 => rfl

/-- Where the deletion of either of two lines has the same effect, the lines from the one to the
other are the same. -/
theorem getElem?_of_eraseIdx {α : Type*} {l : List α} {p i : ℕ} (h : l.eraseIdx i = l.eraseIdx p) :
    ∀ k, p ≤ k → k ≤ i → l[k]? = l[p]? := by
  intro k hp
  induction k, hp using Nat.le_induction with
  | base => exact fun _ => rfl
  | succ k hp ih =>
    intro hk
    have hget : (l.eraseIdx i)[k]? = (l.eraseIdx p)[k]? := by rw [h]
    rw [List.getElem?_eraseIdx_of_lt (by omega), List.getElem?_eraseIdx_of_ge hp] at hget
    rw [← hget, ih (by omega)]

theorem opDeleteLine_head (hne : content ≠ []) : opDeleteLine reallocEmpty ⟨content, true⟩ 0 1 =
    (if content.tail = [] ∧ ¬ reallocEmpty then .error .error else .ok (),
      ⟨content.tail, true⟩) := by
  rw [opDeleteLine_of_bounds Nat.one_pos (List.length_pos_iff.mpr hne), List.take_zero,
    List.nil_append, List.drop_one]

theorem opDeleteLine_head_eq (hne : content ≠ []) :
    opDeleteLine reallocEmpty ⟨content, true⟩ 0 1 = (.ok (), ⟨content.eraseIdx i, true⟩) ↔
      content.eraseIdx i = content.tail ∧ (content.tail ≠ [] ∨ reallocEmpty) := by
  rw [opDeleteLine_head hne, Prod.mk.injEq, Config.mk.injEq]
  split_ifs with h
  · simp [h]
  · rw [not_and_or, not_not] at h
    simp only [true_and, and_true, eq_comm (a := content.tail), h]

theorem configDel_entry : configDel reallocEmpty vars cfg name (some entry) =
    match searchEntryFrom name.isSome entry vars 0 cfg.content with
    | .error e => (.error e, cfg)
    | .ok (start, _) =>
      opDeleteLine reallocEmpty { cfg with needSync := true } start (start + 1) := by
  cases name <;> rfl

theorem delete_global_iff : DeletesExactly vars cfg (.entry none entry)
    (configDel reallocEmpty vars cfg none (some entry)) ↔
      ConfigDeletable reallocEmpty vars cfg (.entry none entry) := by
  have hs := searchEntryFrom_searched false entry vars 0 cfg.content
  rw [show visible false cfg.content = cfg.content by simp [visible]] at hs
  rw [configDel_entry, Option.isSome_none, DeletesExactly, ConfigDeletable, entryLine]
  rcases hr : searchEntryFrom false entry vars 0 cfg.content with (_ | _) | r
  · rw [hr] at hs
    have hp := hs.of_error
    rw [List.findIdx?_eq_none_iff.mpr fun l hl => by simpa using (hp l hl).2]
    exact iff_of_true rfl (.inr hp)
  · rw [hr] at hs
    refine iff_of_false ?_ ?_
    · split <;> rintro ⟨⟩
    · rintro (⟨line, rest, hc, heq, -⟩ | hp)
      · rw [hc] at hs
        cases hs.of_head heq
      · cases hs.of_passed hp
  · rw [hr] at hs
    obtain ⟨rfl, line, hmem, heq⟩ := hs.of_ok
    have hlt : cfg.content.findIdx (entryOf · = some entry) < cfg.content.length :=
      List.findIdx_lt_length_of_exists ⟨line, hmem, by simpa using heq⟩
    have hidx : cfg.content.findIdx? (entryOf · = some entry) =
        some (cfg.content.findIdx (entryOf · = some entry)) :=
      List.findIdx?_eq_some_iff_findIdx_eq.mpr ⟨hlt, rfl⟩
    have hne : cfg.content ≠ [] := List.ne_nil_of_mem hmem
    obtain ⟨first, rest, hc⟩ := List.exists_cons_of_ne_nil hne
    rw [hidx]
    dsimp only
    rw [Nat.zero_add, opDeleteLine_head_eq hne]
    constructor
    · rintro ⟨hsame, hrest⟩
      rw [← List.eraseIdx_zero] at hsame
      have hfirst := getElem?_of_eraseIdx hsame _ (Nat.zero_le _) le_rfl
      have hholds := List.findIdx_getElem (w := hlt)
      rw [List.getElem?_eq_getElem hlt] at hfirst
      refine .inl ⟨first, rest, hc, ?_, by rwa [hc, List.tail_cons] at hrest⟩
      rw [show cfg.content[0]? = some first by rw [hc]; rfl, Option.some.injEq] at hfirst
      rw [← hfirst]
      simpa using hholds
    · rintro (⟨line, rest, hc, heq, hrest⟩ | hp)
      · rw [hc, List.findIdx_cons, heq]
        simpa using hrest
      · exact absurd heq (hp line hmem).2

theorem sectionLine_isSection {name : Line} (h : sectionLine vars cfg name = some start) :
    ∃ hlt : start < cfg.content.length, isSection cfg.content[start] := by
  obtain ⟨hlt, hheads, -⟩ := List.findIdx?_eq_some_iff_getElem.mp h
  exact ⟨hlt, (Bool.and_eq_true_iff.mp hheads).1⟩

theorem entryLine_section {name : Line} (h : entryLine vars cfg (some name) entry = some i) :
    ∃ k ≤ i, ∃ line, cfg.content[k]? = some line ∧ isSection line := by
  obtain ⟨start, hstart, h⟩ := Option.bind_eq_some_iff.mp h
  obtain ⟨j, -, rfl⟩ := Option.map_eq_some_iff.mp h
  obtain ⟨hlt, hs⟩ := sectionLine_isSection hstart
  exact ⟨start, by omega, _, List.getElem?_eq_getElem hlt, hs⟩

theorem delete_in_section_iff {name : Line} : DeletesExactly vars cfg (.entry (some name) entry)
    (configDel reallocEmpty vars cfg (some name) (some entry)) ↔
      ConfigDeletable reallocEmpty vars cfg (.entry (some name) entry) := by
  have hs := searchEntryFrom_searched true entry vars 0 cfg.content
  rw [show visible true cfg.content = cfg.content.takeWhile fun line => ¬ isSection line by
    simp [visible]] at hs
  rw [configDel_entry, Option.isSome_some, DeletesExactly, ConfigDeletable]
  rcases hr : searchEntryFrom true entry vars 0 cfg.content with (_ | _) | r
  · rw [hr] at hs
    have hp := hs.of_error
    cases hline : entryLine vars cfg (some name) entry with
    | none => exact iff_of_true rfl ⟨hp, rfl⟩
    | some i => exact iff_of_false (by rintro ⟨⟩) fun h => by cases h.2
  · rw [hr] at hs
    refine iff_of_false ?_ fun h => by cases hs.of_passed h.1
    split <;> rintro ⟨⟩
  · rw [hr] at hs
    obtain ⟨rfl, line, hmem, heq⟩ := hs.of_ok
    have hne : cfg.content ≠ [] :=
      List.ne_nil_of_mem ((List.takeWhile_sublist _).subset hmem)
    obtain ⟨first, rest, hc⟩ := List.exists_cons_of_ne_nil hne
    have hfirst : ¬ isSection first := by
      intro hs
      rw [hc, List.takeWhile_cons, if_neg (by simpa using hs)] at hmem
      cases hmem
    refine iff_of_false ?_ fun h => (h.1 line hmem).2 heq
    cases hline : entryLine vars cfg (some name) entry with
    | none =>
      intro h
      have hcontent : cfg.content.tail = cfg.content :=
        congrArg (fun r => r.2.content) ((opDeleteLine_head hne).symm.trans h)
      rw [hc, List.tail_cons] at hcontent
      exact List.cons_ne_self first rest hcontent.symm
    | some i =>
      intro h
      obtain ⟨k, hk, line', hline', hs⟩ := entryLine_section hline
      have hsame := ((opDeleteLine_head_eq hne).mp h).1
      rw [← List.eraseIdx_zero] at hsame
      have hsame := getElem?_of_eraseIdx hsame k (Nat.zero_le k) hk
      rw [hline', hc, List.getElem?_cons_zero, Option.some.injEq] at hsame
      exact hfirst (hsame ▸ hs)

/-- What the search comes to where it takes just the lines that begin the section. -/
theorem searchSectionFrom_of_readable {name : Line} (hname : entryOf (sectionText name) = wentry)
    {vars' : Variables} (h : ∀ before line after, content = before ++ line :: after →
      (∀ l ∈ before, ¬ heads vars name l) → ¬ Incomparable name line ∧
        takes (sectionVars vars' before) wentry wvalue line = heads vars name line) :
    searchSectionFrom wentry wvalue vars' i content =
      ((content.findIdx? (heads vars name)).map (i + ·)).elim (.error .error) .ok := by
  induction content generalizing vars' i with
  | nil => rfl
  | cons line lines ih =>
    obtain ⟨hline, htaken⟩ := h [] line lines rfl (List.forall_mem_nil _)
    rw [sectionVars, List.foldl_nil] at htaken
    rw [List.findIdx?_cons]
    rcases searchSectionFrom_cases hname vars' wvalue i line with
      ⟨⟨ht, -⟩, hok⟩ | ⟨hl, -⟩ | ⟨⟨ht, -⟩, hnext⟩
    · rw [hok, if_pos (htaken ▸ ht)]
      rfl
    · exact absurd hl hline
    · rw [htaken] at ht
      have hrest := @ih (i + 1) (lineVars vars' line) fun before l after hsplit hbefore =>
        h (line :: before) l after (congrArg (line :: ·) hsplit)
          (List.forall_mem_cons.mpr ⟨ht, hbefore⟩)
      rw [hnext, hrest, if_neg ht]
      cases lines.findIdx? (heads vars name) with
      | none => rfl
      | some k => exact congrArg Except.ok (Nat.add_right_comm i 1 k)

theorem searchSectionFrom_of_unset {name : Line} (hname : entryOf (sectionText name) = wentry)
    (h : ∀ line ∈ content, lineVars vars line = vars) :
    match searchSectionFrom wentry wvalue vars i content with
    | .error .fault => True
    | .error .error => ∀ l ∈ content, ¬ takes vars wentry wvalue l ∧ ¬ Incomparable name l
    | .ok k => ∃ before line after, content = before ++ line :: after ∧ k = i + before.length ∧
        (takes vars wentry wvalue line ∧ ¬ Incomparable name line) ∧
        ∀ l ∈ before, ¬ takes vars wentry wvalue l ∧ ¬ Incomparable name l := by
  induction content generalizing i with
  | nil => exact List.forall_mem_nil _
  | cons line lines ih =>
    obtain ⟨hline, hlines⟩ := List.forall_mem_cons.mp h
    rcases searchSectionFrom_cases hname vars wvalue i line with
      ⟨ht, hok⟩ | ⟨-, hfault⟩ | ⟨ht, hnext⟩
    · rw [hok]
      exact ⟨[], line, lines, rfl, rfl, ht, List.forall_mem_nil _⟩
    · rw [hfault]
      trivial
    · have hrest := @ih (i + 1) hlines
      rw [hnext, hline]
      rcases hr : searchSectionFrom wentry wvalue vars (i + 1) lines with (_ | _) | k
      · rw [hr] at hrest
        exact List.forall_mem_cons.mpr ⟨ht, hrest⟩
      · trivial
      · rw [hr] at hrest
        obtain ⟨before, l, after, rfl, rfl, hl, hbefore⟩ := hrest
        exact ⟨line :: before, l, after, rfl, by simp only [List.length_cons]; omega, hl,
          List.forall_mem_cons.mpr ⟨ht, hbefore⟩⟩

theorem configDel_section {name : Line} (hsearch : searchSection vars cfg name 0 = .ok start)
    (hlt : start < cfg.content.length) :
    configDel reallocEmpty vars cfg (some name) none =
      (if withoutSection cfg.content start = [] ∧ ¬ reallocEmpty then .error .error else .ok (),
        ⟨withoutSection cfg.content start, true⟩) := by
  have hdel : configDel reallocEmpty vars cfg (some name) none =
      opDeleteLine reallocEmpty { cfg with needSync := true } (skipBlank cfg.content start)
        (nextSection (start + 1) (cfg.content.drop (start + 1))) := by
    unfold configDel
    dsimp only
    rw [hsearch]
  have hstart := skipBlank_le cfg.content start
  have hdrop : (cfg.content.drop (start + 1)).dropWhile (fun line => ¬ isSection line) =
      cfg.content.drop (nextSection (start + 1) (cfg.content.drop (start + 1))) := by
    rw [nextSection_eq, ← List.drop_drop (i := _) (j := start + 1)]
    exact (List.drop_left' rfl).symm.trans
      (congrArg (List.drop _) List.takeWhile_append_dropWhile)
  have hstop : nextSection (start + 1) (cfg.content.drop (start + 1)) ≤ cfg.content.length ∧
      start < nextSection (start + 1) (cfg.content.drop (start + 1)) := by
    have := (List.takeWhile_sublist (l := cfg.content.drop (start + 1))
      fun line => ¬ isSection line).length_le
    rw [List.length_drop] at this
    rw [nextSection_eq]
    omega
  rw [hdel, @opDeleteLine_of_bounds reallocEmpty ⟨cfg.content, true⟩ _ _ (by omega) hstop.1]
  simp only [take_skipBlank hlt.le, ← hdrop]
  rfl

theorem length_withoutSection (hlt : start < content.length) :
    (withoutSection content start).length < content.length := by
  have htake : (withoutSurplus (content.take start)).length ≤ start :=
    (List.length_take_le' _ _).trans (List.length_take_le _ _)
  have hdrop := (List.dropWhile_sublist (l := content.drop (start + 1))
    fun line => ¬ isSection line).length_le
  rw [List.length_drop] at hdrop
  rw [withoutSection, List.length_append]
  omega

theorem filter_withoutSurplus (lines : List Line) :
    (withoutSurplus lines).filter isSection = lines.filter isSection := by
  have hblank : ∀ l ∈ lines.drop
      (lines.length - ((lines.reverse.takeWhile (· = [])).length - 1)), ¬ isSection l := by
    intro l hl
    rw [← List.mem_reverse, ← List.take_reverse] at hl
    have hl := (List.take_subset_take_left lines.reverse (Nat.sub_le _ 1)) hl
    rw [← List.prefix_iff_eq_take.mp (List.takeWhile_prefix _)] at hl
    have hnil : l = [] := by simpa using List.mem_takeWhile_imp hl
    rw [hnil]
    decide
  conv_rhs => rw [← List.take_append_drop
    (lines.length - ((lines.reverse.takeWhile (· = [])).length - 1)) lines, List.filter_append,
    List.filter_eq_nil_iff.mpr hblank, List.append_nil]
  rfl

theorem filter_eq_of_section (hlt : start < content.length) (hs : isSection content[start]) :
    content.filter isSection = (content.take start).filter isSection ++
      content[start] :: (content.drop (start + 1)).filter isSection := by
  conv_lhs => rw [← List.take_append_drop start content, List.drop_eq_getElem_cons hlt,
    List.filter_append, List.filter_cons_of_pos hs]

theorem filter_withoutSection (hlt : start < content.length) (hs : isSection content[start]) :
    (withoutSection content start).filter isSection =
      (content.filter isSection).eraseIdx ((content.take start).filter isSection).length := by
  have hbody : (content.drop (start + 1)).filter isSection =
      ((content.drop (start + 1)).dropWhile fun line => ¬ isSection line).filter isSection := by
    conv_lhs => rw [← List.takeWhile_append_dropWhile (p := fun line => ¬ isSection line)
      (l := content.drop (start + 1)), List.filter_append]
    rw [List.filter_eq_nil_iff.mpr fun l hl => by simpa using List.mem_takeWhile_imp hl,
      List.nil_append]
  rw [filter_eq_of_section hlt hs, List.eraseIdx_append_of_length_le le_rfl, Nat.sub_self,
    List.eraseIdx_cons_zero, withoutSection, List.filter_append, filter_withoutSurplus, hbody]

theorem getElem_of_withoutSection {p q : ℕ} (hp : p < content.length) (hq : q < content.length)
    (hsp : isSection content[p]) (hsq : isSection content[q])
    (h : withoutSection content p = withoutSection content q) : content[p] = content[q] := by
  wlog hle : p ≤ q generalizing p q
  · exact (this hq hp hsq hsp h.symm (Nat.le_of_not_le hle)).symm
  have hget {k : ℕ} (hk : k < content.length) (hs : isSection content[k]) :
      (content.filter isSection)[((content.take k).filter isSection).length]? =
        some content[k] := by
    rw [filter_eq_of_section hk hs, List.getElem?_append_right le_rfl, Nat.sub_self,
      List.getElem?_cons_zero]
  have herase := congrArg (List.filter isSection) h
  rw [filter_withoutSection hp hsp, filter_withoutSection hq hsq] at herase
  have hsame := getElem?_of_eraseIdx herase.symm _
    ((List.take_sublist_take_left hle).filter _).length_le le_rfl
  rw [hget hp hsp, hget hq hsq] at hsame
  exact (Option.some.inj hsame).symm

theorem searchSection_of_ok {name : Line} {vars' : Variables} (hne : cfg.content ≠ [])
    (hp : parseSectionBuffer vars name true = .ok (wentry, wvalue, vars')) :
    searchSection vars cfg name 0 = searchSectionFrom wentry wvalue vars' 0 cfg.content ∧
      entryOf (sectionText name) = wentry := by
  refine ⟨by rw [searchSection, if_neg hne, hp]; rfl, ?_⟩
  rcases parseSectionBuffer_cases vars name true with ⟨-, h⟩ | ⟨-, h⟩ | ⟨-, -, _, _, h⟩
  · cases hp.symm.trans h
  · cases hp.symm.trans h
  · cases hp.symm.trans h
    rfl

theorem dropWhile_dropWhile {p q : UInt8 → Bool} (hpq : ∀ b, p b → q b) (buf : Line) :
    (buf.dropWhile p).dropWhile q = buf.dropWhile q := by
  induction buf with
  | nil => rfl
  | cons b buf ih =>
    by_cases hb : p b
    · rw [List.dropWhile_cons_of_pos hb, ih, List.dropWhile_cons_of_pos (hpq b hb)]
    · rw [List.dropWhile_cons_of_neg hb]

theorem sectionNamed_of_empty {name : Line} (h : sectionText name = []) :
    sectionNamed vars name = none := by
  have hskip : (name.dropWhile fun b => isBlank b ∨ b = 10 ∨ b = 91).takeWhile (· ≠ 93) = [] := by
    rw [← @dropWhile_dropWhile (fun b => b = 10 ∨ b = 32 ∨ b = 91) _ (by simp [isBlank])]
    rw [sectionText] at h
    cases hr : name.dropWhile fun b => b = 10 ∨ b = 32 ∨ b = 91 with
    | nil => rfl
    | cons b rest =>
      rw [hr, List.takeWhile_cons] at h
      obtain rfl : b = 93 := by
        by_contra hb
        rw [if_pos (by simpa using hb)] at h
        cases h
      rfl
  rw [sectionNamed, hskip]
  rfl

theorem searchSection_of_readable {name : Line} (h : SectionReadable vars cfg name) :
    searchSection vars cfg name 0 = (sectionLine vars cfg name).elim (.error .error) .ok := by
  by_cases hne : cfg.content = []
  · rw [searchSection, if_pos hne, sectionLine, hne]
    rfl
  rw [SectionReadable] at h
  rcases hp : parseSectionBuffer vars name true with (_ | _) | ⟨wentry, wvalue, vars'⟩
  · have hnone : sectionLine vars cfg name = none := by
      refine List.findIdx?_eq_none_iff.mpr fun l _ => ?_
      have hempty : sectionText name = [] := by
        rcases parseSectionBuffer_cases vars name true with ⟨h, -⟩ | ⟨-, h⟩ | ⟨-, -, _, _, h⟩
        · exact h
        · cases hp.symm.trans h
        · cases hp.symm.trans h
      unfold heads
      rw [sectionNamed_of_empty hempty]
      exact Bool.and_false _
    rw [searchSection, if_neg hne, hp, hnone]
    rfl
  · rw [hp] at h
    exact absurd h hne
  · rw [hp] at h
    obtain ⟨hsearch, hname⟩ := searchSection_of_ok hne hp
    rw [hsearch, searchSectionFrom_of_readable hname h]
    simp [sectionLine]

/-- What was asked for is deleted where the search reads the sections as they are. -/
theorem delete_section_of_readable {name : Line}
    (h : ConfigDeletable reallocEmpty vars cfg (.section name)) :
    DeletesExactly vars cfg (.section name) (configDel reallocEmpty vars cfg (some name) none) := by
  obtain ⟨hread, hleft⟩ := h
  have hsearch := searchSection_of_readable hread
  rw [DeletesExactly]
  cases hline : sectionLine vars cfg name with
  | none =>
    rw [hline] at hsearch
    unfold configDel
    dsimp only
    rw [hsearch]
    rfl
  | some start =>
    rw [hline] at hsearch
    obtain ⟨hlt, -⟩ := sectionLine_isSection hline
    dsimp only
    rw [configDel_section hsearch hlt, if_neg fun hempty => (hleft start hline).elim
      (fun hne => hne hempty.1) hempty.2]

theorem parseSectionBuffer_vars {buf : Line} {default : Bool} {vars' : Variables}
    (h : ¬ SetsVariable buf)
    (hp : parseSectionBuffer vars buf default = .ok (wentry, wvalue, vars')) : vars' = vars := by
  have heq : parseSectionBuffer vars buf default = (parseBuffer vars (sectionText buf)).map
      fun r => (r.1, if r.2.1 = none ∧ default then some (ascii "default") else r.2.1, r.2.2) := rfl
  rw [heq, parseBuffer] at hp
  by_cases hnil : sectionText buf = []
  · rw [if_pos hnil] at hp
    cases hp
  rw [if_neg hnil] at hp
  by_cases hmem : 61 ∈ sectionText buf
  · rw [if_neg (not_not.mpr hmem)] at hp
    cases hname : entryOf (sectionText buf) with
    | none =>
      rw [hname] at hp
      cases hp
    | some name =>
      rw [hname] at hp
      have hdollar : name.head? ≠ some 36 := fun hd => h ⟨hmem, name, hname, hd⟩
      cases hp
      exact if_neg hdollar
  · rw [if_pos hmem] at hp
    cases hp
    rfl

theorem lineVars_eq {line : Line} (h : isSection line → ¬ SetsVariable line) :
    lineVars vars line = vars := by
  unfold lineVars
  cases hs : isSection line with
  | false => rfl
  | true =>
    rcases hp : parseSectionBuffer vars line true with e | ⟨entry, value, vars'⟩
    · rfl
    · exact parseSectionBuffer_vars (h hs) hp

theorem sectionVars_eq {lines : List Line} (h : ∀ l ∈ lines, lineVars vars l = vars) :
    sectionVars vars lines = vars := by
  induction lines with
  | nil => rfl
  | cons line lines ih =>
    obtain ⟨hline, hlines⟩ := List.forall_mem_cons.mp h
    rw [sectionVars, List.foldl_cons, hline]
    exact ih hlines

theorem section_of_delete {name : Line} {k : ℕ} (hsearch : searchSection vars cfg name 0 = .ok k)
    (hlt : k < cfg.content.length) (h : DeletesExactly vars cfg (.section name)
      (configDel reallocEmpty vars cfg (some name) none)) :
    ∃ start, sectionLine vars cfg name = some start ∧
      withoutSection cfg.content k = withoutSection cfg.content start ∧
      (withoutSection cfg.content start ≠ [] ∨ reallocEmpty) := by
  rw [configDel_section hsearch hlt, DeletesExactly] at h
  cases hline : sectionLine vars cfg name with
  | none =>
    rw [hline] at h
    have hlen := congrArg (fun r => r.2.content.length) h
    exact absurd hlen (length_withoutSection hlt).ne
  | some start =>
    rw [hline] at h
    dsimp only at h
    rw [Prod.mk.injEq, Config.mk.injEq] at h
    obtain ⟨hret, hsame, -⟩ := h
    refine ⟨start, rfl, hsame, ?_⟩
    rw [← hsame]
    by_contra hempty
    rw [not_or, not_not] at hempty
    rw [if_pos hempty] at hret
    cases hret

theorem start_of_delete {name : Line} {line : Line} {before after : List Line}
    (hcontent : cfg.content = before ++ line :: after) {p : Line → Bool}
    (hline : p line) (hs : isSection line) (hbefore : ∀ l ∈ before, ¬ p l)
    (hsection : sectionLine vars cfg name = some start)
    (hsame : withoutSection cfg.content before.length = withoutSection cfg.content start) :
    start = before.length := by
  obtain ⟨hlt, hheads, hfirst⟩ := List.findIdx?_eq_some_iff_getElem.mp hsection
  have hk : before.length < cfg.content.length := by simp [hcontent]
  have hget : cfg.content[before.length] = line := by simp [hcontent]
  have heq := getElem_of_withoutSection hk hlt (hget ▸ hs) (sectionLine_isSection hsection).2 hsame
  rw [hget] at heq
  refine le_antisymm (not_lt.mp fun hlater => ?_) (not_lt.mp fun hearlier => ?_)
  · refine hfirst _ hlater ?_
    rwa [hget, heq]
  · refine hbefore cfg.content[start] ?_ (heq ▸ hline)
    simp only [hcontent, List.getElem_append_left hearlier]
    exact List.getElem_mem hearlier

theorem isSection_of_takes {line : Line} (h : takes vars wentry wvalue line) : isSection line :=
  (Bool.and_eq_true_iff.mp h).1

theorem section_absent_of_error {name : Line} {e : LineFailure}
    (h : DeletesExactly vars cfg (.section name)
      (configDel reallocEmpty vars cfg (some name) none))
    (hr : searchSection vars cfg name 0 = .error e) :
    e = .error ∧ sectionLine vars cfg name = none := by
  unfold configDel at h
  dsimp only at h
  rw [hr, DeletesExactly] at h
  cases hline : sectionLine vars cfg name with
  | none =>
    rw [hline] at h
    cases h
    exact ⟨rfl, rfl⟩
  | some start =>
    rw [hline] at h
    cases h

theorem lineVars_of_unset {name : Line} (hunset : Unset cfg (.section name)) :
    ∀ l ∈ cfg.content, lineVars vars l = vars :=
  fun l hl => lineVars_eq (hunset.2 l hl)

/-- The line that the search takes is a line of the file, and the first that it takes. -/
theorem exists_taken {name : Line} {k : ℕ} (hunset : Unset cfg (.section name))
    (hr : searchSection vars cfg name 0 = .ok k) :
    ∃ wentry wvalue before line after,
      parseSectionBuffer vars name true = .ok (wentry, wvalue, vars) ∧
      cfg.content = before ++ line :: after ∧ k = before.length ∧
      (takes vars wentry wvalue line ∧ ¬ Incomparable name line) ∧
      ∀ l ∈ before, ¬ takes vars wentry wvalue l ∧ ¬ Incomparable name l := by
  have hne : cfg.content ≠ [] := by
    rintro hnil
    rw [searchSection, if_pos hnil] at hr
    cases hr
  rcases hp : parseSectionBuffer vars name true with e | ⟨wentry, wvalue, vars'⟩
  · rw [searchSection, if_neg hne, hp] at hr
    cases hr
  · obtain rfl := parseSectionBuffer_vars hunset.1 hp
    obtain ⟨hsearch, hwanted⟩ := searchSection_of_ok hne hp
    have hspec := @searchSectionFrom_of_unset vars' wentry wvalue cfg.content 0 name hwanted
      (lineVars_of_unset hunset)
    rw [← hsearch, hr] at hspec
    obtain ⟨before, line, after, hsplit, hk, hline, hbefore⟩ := hspec
    exact ⟨wentry, wvalue, before, line, after, rfl, hsplit, by omega, hline, hbefore⟩

/-- A file without the section, in which the search takes no line. -/
theorem takes_eq_heads_of_absent {name line : Line} (hunset : Unset cfg (.section name))
    (hp : parseSectionBuffer vars name true = .ok (wentry, wvalue, vars))
    (hr : searchSection vars cfg name 0 = .error .error)
    (hnone : sectionLine vars cfg name = none) (hmem : line ∈ cfg.content) :
    ¬ Incomparable name line ∧ takes vars wentry wvalue line = heads vars name line := by
  obtain ⟨hsearch, hwanted⟩ := searchSection_of_ok (List.ne_nil_of_mem hmem) hp
  have hspec := @searchSectionFrom_of_unset vars wentry wvalue cfg.content 0 name hwanted
    (lineVars_of_unset hunset)
  rw [← hsearch, hr] at hspec
  obtain ⟨ht, hline⟩ := hspec line hmem
  rw [Bool.eq_false_of_not_eq_true ht, List.findIdx?_eq_none_iff.mp hnone line hmem]
  exact ⟨hline, rfl⟩

/-- Up to the line that the search takes, when the section begins there. -/
theorem takes_eq_heads_of_taken {name line taken : Line} {before after first rest : List Line}
    (hsplit : cfg.content = before ++ line :: after)
    (hbefore : ∀ l ∈ before, ¬ heads vars name l)
    (htaken : cfg.content = first ++ taken :: rest)
    (hline : takes vars wentry wvalue taken ∧ ¬ Incomparable name taken)
    (hfirst : ∀ l ∈ first, ¬ takes vars wentry wvalue l ∧ ¬ Incomparable name l)
    (hstart : sectionLine vars cfg name = some first.length) :
    ¬ Incomparable name line ∧ takes vars wentry wvalue line = heads vars name line := by
  obtain ⟨hlt, hheads, hearlier⟩ := List.findIdx?_eq_some_iff_getElem.mp hstart
  have hget : cfg.content[first.length] = taken := by simp [htaken]
  rw [hget] at hheads
  have hnot (l : Line) (hl : l ∈ first) : heads vars name l = false := by
    obtain ⟨j, hj, rfl⟩ := List.getElem_of_mem hl
    have hj' : j < cfg.content.length := by omega
    have hget : cfg.content[j] = first[j] := by simp [htaken, hj]
    exact Bool.eq_false_of_not_eq_true (hget ▸ hearlier j hj)
  have hsame : ¬ Incomparable name taken ∧
      takes vars wentry wvalue taken = heads vars name taken := ⟨hline.2, hline.1.trans hheads.symm⟩
  rcases List.append_eq_append_iff.mp (hsplit.symm.trans htaken) with
    ⟨more, hb, hrest⟩ | ⟨more, hb, hrest⟩
  · cases more with
    | nil =>
      obtain ⟨rfl, -⟩ := List.cons.inj hrest
      exact hsame
    | cons l more =>
      obtain ⟨rfl, -⟩ := List.cons.inj hrest
      have hmem : line ∈ first := by simp [hb]
      rw [Bool.eq_false_of_not_eq_true (hfirst line hmem).1, hnot line hmem]
      exact ⟨(hfirst line hmem).2, rfl⟩
  · cases more with
    | nil =>
      obtain ⟨rfl, -⟩ := List.cons.inj hrest
      exact hsame
    | cons l more =>
      obtain ⟨rfl, -⟩ := List.cons.inj hrest
      exact absurd hheads (hbefore taken (by simp [hb]))

theorem readable_of_delete_section {name : Line} (hunset : Unset cfg (.section name))
    (h : DeletesExactly vars cfg (.section name)
      (configDel reallocEmpty vars cfg (some name) none)) : SectionReadable vars cfg name := by
  rw [SectionReadable]
  rcases hp : parseSectionBuffer vars name true with (_ | _) | ⟨wentry, wvalue, vars'⟩
  · trivial
  · by_contra hne
    have hfault : searchSection vars cfg name 0 = .error .fault := by
      rw [searchSection, if_neg hne, hp]
    cases (section_absent_of_error h hfault).1
  · obtain rfl := parseSectionBuffer_vars hunset.1 hp
    rintro before line after hsplit hbefore
    have hmem {l : Line} (hl : l ∈ before) : l ∈ cfg.content := by simp [hsplit, hl]
    rw [sectionVars_eq fun l hl => lineVars_of_unset hunset l (hmem hl)]
    rcases hr : searchSection vars' cfg name 0 with e | k
    · obtain ⟨rfl, hnone⟩ := section_absent_of_error h hr
      exact takes_eq_heads_of_absent hunset hp hr hnone (by simp [hsplit])
    · obtain ⟨_, _, first, taken, rest, hp', htaken, rfl, hline, hfirst⟩ := exists_taken hunset hr
      cases hp.symm.trans hp'
      obtain ⟨start, hstart, hsame, -⟩ := section_of_delete hr (by simp [htaken]) h
      obtain rfl := start_of_delete htaken hline.1 (isSection_of_takes hline.1)
        (fun l hl => (hfirst l hl).1) hstart hsame
      exact takes_eq_heads_of_taken hsplit hbefore htaken hline hfirst hstart

/-- Where no section sets a variable the search reads the sections as they are, once what was
asked for is deleted. -/
theorem deletable_of_delete_section {name : Line} (hunset : Unset cfg (.section name))
    (h : DeletesExactly vars cfg (.section name)
      (configDel reallocEmpty vars cfg (some name) none)) :
    ConfigDeletable reallocEmpty vars cfg (.section name) := by
  refine ⟨readable_of_delete_section hunset h, fun start hstart => ?_⟩
  rcases hr : searchSection vars cfg name 0 with e | k
  · cases (section_absent_of_error h hr).2.symm.trans hstart
  · obtain ⟨_, _, before, line, after, -, hsplit, rfl, -, -⟩ := exists_taken hunset hr
    obtain ⟨start', hstart', -, hleft⟩ := section_of_delete hr (by simp [hsplit]) h
    cases hstart.symm.trans hstart'
    exact hleft

theorem stripValue_blanks {b x : Line} (hb : ∀ c ∈ b, isBlank c) :
    stripValue (b ++ x) = stripValue x := by
  simp only [stripValue, List.dropWhile_append_of_pos hb]

theorem sectionText_of_plain {buf : Line} (h : ¬ Indented buf) :
    ∃ b : Line, (∀ c ∈ b, isBlank c) ∧ sectionText buf =
      b ++ (buf.dropWhile fun b => isBlank b ∨ b = 10 ∨ b = 91).takeWhile (· ≠ 93) := by
  set r := buf.dropWhile fun b => b = 10 ∨ b = 32 ∨ b = 91 with hr
  have hskip : buf.dropWhile (fun b => isBlank b ∨ b = 10 ∨ b = 91) = r.dropWhile isBlank := by
    rw [← @dropWhile_dropWhile (fun b => b = 10 ∨ b = 32 ∨ b = 91) _ (by simp [isBlank]), ← hr,
      ← @dropWhile_dropWhile isBlank _ (by simp +contextual)]
    have hnot := List.head?_dropWhile_not isBlank r
    cases hd : r.dropWhile isBlank with
    | nil => rfl
    | cons c rest =>
      rw [hd] at hnot
      rw [Indented, ← hr, hd] at h
      refine List.dropWhile_cons_of_neg ?_
      simp_all
  have hblank : ∀ c ∈ r.takeWhile isBlank, isBlank c := fun c hc => List.mem_takeWhile_imp hc
  refine ⟨r.takeWhile isBlank, hblank, ?_⟩
  rw [hskip, sectionText, ← hr]
  conv_lhs => rw [← List.takeWhile_append_dropWhile (p := isBlank) (l := r)]
  refine List.takeWhile_append_of_pos fun c hc => decide_eq_true ?_
  rintro rfl
  exact absurd (hblank 93 hc) (by decide)

theorem sectionNamed_of_plain {buf : Line} (h : ¬ Indented buf) :
    sectionNamed vars buf = (entryOf (sectionText buf)).map fun name =>
      (name, (((valueOf (sectionText buf)).map (valueResolveVariable vars)).filter (· ≠ [])).getD
        (ascii "default")) := by
  obtain ⟨b, hb, htext⟩ := sectionText_of_plain h
  rw [sectionNamed]
  generalize (buf.dropWhile fun b => isBlank b ∨ b = 10 ∨ b = 91).takeWhile (· ≠ 93) = t at htext
  have hb' : ∀ c ∈ b, decide (c ≠ 61) := fun c hc => decide_eq_true fun he =>
    absurd (hb c hc) (by rw [he]; decide)
  have hentry : entryOf (sectionText buf) = entryOf t := by
    rw [entryOf, htext, List.takeWhile_append_of_pos hb', stripValue_blanks hb, entryOf]
  have hvalue : valueOf (sectionText buf) = valueOf t := by
    rw [valueOf, htext, List.dropWhile_append_of_pos hb', valueOf]
  rw [hentry, hvalue]

theorem sectionNamed_of_parsed {buf : Line} {vars' : Variables} (h : ¬ Indented buf)
    (hp : parseSectionBuffer vars buf true = .ok (wentry, wvalue, vars')) :
    sectionNamed vars buf = wentry.map fun name => (name, wvalue.getD []) := by
  rw [sectionNamed_of_plain h]
  have heq : parseSectionBuffer vars buf true = (parseBuffer vars (sectionText buf)).map
      fun r => (r.1, if r.2.1 = none ∧ true then some (ascii "default") else r.2.1, r.2.2) := rfl
  have hdefault (v : Option Line) :
      (if v = none ∧ true then some (ascii "default") else v) =
        some (v.getD (ascii "default")) := by
    cases v <;> rfl
  rw [heq, parseBuffer] at hp
  by_cases hnil : sectionText buf = []
  · rw [if_pos hnil] at hp
    cases hp
  rw [if_neg hnil] at hp
  by_cases hmem : 61 ∈ sectionText buf
  · rw [if_neg (not_not.mpr hmem)] at hp
    cases hname : entryOf (sectionText buf) with
    | none =>
      rw [hname] at hp
      cases hp
    | some name =>
      rw [hname] at hp
      dsimp only [Except.map] at hp
      rw [hdefault] at hp
      cases hp
      rfl
  · have hnone : valueOf (sectionText buf) = none := by
      rw [valueOf, List.dropWhile_eq_nil_iff.mpr fun c hc => decide_eq_true
        (ne_of_mem_of_not_mem hc hmem)]
      rfl
    rw [if_pos hmem] at hp
    cases hp
    rw [hnone]
    rfl

theorem takes_eq_heads {name line : Line} {vars' : Variables} (hname : ¬ Indented name)
    (hline : ¬ Indented line)
    (hp : parseSectionBuffer vars name true = .ok (wentry, wvalue, vars')) :
    takes vars wentry wvalue line = heads vars name line := by
  unfold takes heads
  rw [sectionNamed_of_parsed hname hp]
  congr 1
  rcases parseSectionBuffer_cases vars line true with ⟨h, hl⟩ | ⟨h, hl⟩ | ⟨-, -, value, vars'', hl⟩
  · rw [hl, sectionNamed_of_empty h]
    cases wentry <;> rfl
  · rw [hl, sectionNamed_of_plain hline, h.2]
    cases wentry <;> rfl
  · rw [hl, sectionNamed_of_parsed hline hl]
    cases wentry <;> cases entryOf (sectionText line) <;> rfl

/-- The sections of a file are read as they are where they have names, set no variable and have no
tab before a bracket. -/
theorem sectionReadable_of_plain {name : Line} (hunset : Unset cfg (.section name))
    (hname : ¬ Indented name ∧ entryOf (sectionText name) ≠ none)
    (hlines : ∀ line ∈ cfg.content, isSection line →
      ¬ Indented line ∧ entryOf (sectionText line) ≠ none) : SectionReadable vars cfg name := by
  rw [SectionReadable]
  rcases hp : parseSectionBuffer vars name true with (_ | _) | ⟨wentry, wvalue, vars'⟩
  · trivial
  · rcases parseSectionBuffer_cases vars name true with ⟨-, h⟩ | ⟨h, -⟩ | ⟨-, -, _, _, h⟩
    · cases hp.symm.trans h
    · exact absurd h.2 hname.2
    · cases hp.symm.trans h
  · obtain rfl := parseSectionBuffer_vars hunset.1 hp
    rintro before line after hsplit -
    have hmem : line ∈ cfg.content := by simp [hsplit]
    rw [sectionVars_eq fun l hl => lineVars_eq (hunset.2 l (by simp [hsplit, hl]))]
    refine ⟨fun hi => hi.2.2.2.elim (hlines line hmem hi.2.1).2 hname.2, ?_⟩
    by_cases hs : isSection line
    · exact takes_eq_heads hname.1 (hlines line hmem hs).1 hp
    · unfold takes heads
      rw [Bool.eq_false_of_not_eq_true hs]
      rfl

/-- Deletion does what it should of an entry just if that is on the first line or nowhere that the
search comes, and of a section if the search reads the sections as they are and a line is left; and
only then, unless a section sets a variable. -/
theorem config_del_iff (reallocEmpty : Bool) (vars : Variables) (cfg : Config) (d : Deletion) :
    (ConfigDeletable reallocEmpty vars cfg d →
      DeletesExactly vars cfg d (d.run reallocEmpty vars cfg)) ∧
    (Unset cfg d → (DeletesExactly vars cfg d (d.run reallocEmpty vars cfg) ↔
      ConfigDeletable reallocEmpty vars cfg d)) := by
  rcases d with ⟨_ | name, key⟩ | name
  · exact ⟨delete_global_iff.mpr, fun _ => delete_global_iff⟩
  · exact ⟨delete_in_section_iff.mpr, fun _ => delete_in_section_iff⟩
  · exact ⟨delete_section_of_readable, fun hunset =>
      ⟨deletable_of_delete_section hunset, delete_section_of_readable⟩⟩

/-- The second of two entries is asked for and the first one goes. -/
theorem delete_second_entry :
    ¬ DeletesExactly [] ⟨[ascii "a=1", ascii "b=2"], false⟩ (.entry none (ascii "b"))
      (Deletion.run true [] ⟨[ascii "a=1", ascii "b=2"], false⟩ (.entry none (ascii "b"))) := by
  refine mt delete_global_iff.mp ?_
  rintro (⟨line, rest, hc, heq, -⟩ | hp)
  · obtain ⟨rfl, -⟩ := List.cons.inj hc
    exact absurd heq (by decide)
  · exact (hp (ascii "b=2") (by simp)).2 (by decide)

end

end LibPrelude
