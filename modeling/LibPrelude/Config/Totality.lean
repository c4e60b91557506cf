import LibPrelude.Config.Calls

/-! # Calls that come to an end

A call reads nothing that is absent as long as every line that it gets to has an entry, every entry
that it looks up has a value, and the variables in these values do not name one another for ever.
-/

namespace LibPrelude

/-- A line without an entry comes behind the entry that is searched for, if at all. -/
def Clear (entry : Line) (lines : List Line) : Prop :=
  ∀ before line after, lines = before ++ line :: after → Faulty line →
    ∃ l ∈ before, entryOf l = some entry

def Query.Clear (cfg : Config) (q : Query) : Prop :=
  LibPrelude.Clear q.entry (visible q.name.isSome (cfg.content.drop (q.line - 1)))

/-- The value of an entry is a variable that is not set, and is looked for in its turn. -/
inductive Refers (cfg : Config) : Query → Query → Prop
  | value {q : Query} {i : ℕ} {value : Line} {vars : Variables} :
      q.search cfg = .ok (i, some value, vars) → value.head? = some 36 →
      variableGet vars value.tail = none → Refers cfg q ⟨vars, none, value.tail, 0⟩

/-- Following the variables in values ends, and up to then every entry has a value. -/
structure Query.Sound (cfg : Config) (q : Query) : Prop where
  ends : Acc (fun q' q => Refers cfg q q') q
  clear : ∀ q', Relation.ReflTransGen (Refers cfg) q q' → q'.Clear cfg
  valued : ∀ q', Relation.ReflTransGen (Refers cfg) q q' →
    ∀ i vars, q'.search cfg ≠ .ok (i, none, vars)

/-- A value or the lack of an entry is returned, and the empty string for an entry without a
value. -/
def Query.Total (cfg : Config) (q : Query) : Prop :=
  ∃ fuel value line, configGet cfg fuel q = some (.ok (value, line)) ∧
    ∀ i vars, q.search cfg = .ok (i, none, vars) → value = some []

/-- A line that says nothing, or sets a variable. -/
def Skipped (line : Line) : Prop :=
  let ptr := line.dropWhile isBlank
  (ptr = [] ∨ isLineCommented ptr) ∨
    ¬ isSection ptr ∧ ∃ entry, entryOf ptr = some entry ∧ entry.head? = some 36

/-- A line that says something but has no entry, or a section that has a value only. -/
def Nameless (line : Line) : Prop :=
  let ptr := line.dropWhile isBlank
  ¬ (ptr = [] ∨ isLineCommented ptr) ∧
    if isSection ptr then Faulty (sectionText ptr) else entryOf ptr = none

/-- The section is found before one that has no name, and has a name itself. -/
def SectionClear (vars : Variables) (cfg : Config) (name : Line) (index : ℕ) : Prop :=
  sectionText name = [] ∨ ¬ Faulty (sectionText name) ∧
    ∀ before line after, cfg.content.drop index = before ++ line :: after →
      Incomparable name line →
        ∃ k, searchSection vars ⟨cfg.content.take index ++ before, cfg.needSync⟩ name index = .ok k

def Setting.Sound (vars : Variables) (cfg : Config) (index : ℕ) : Setting → Prop
  | .entry key _ => Clear key (cfg.content.drop index)
  | .section name key _ => SectionClear vars cfg name index ∧
      ∀ start, searchSection vars cfg name index = .ok start → ∀ k ∈ key,
        Clear k (visible true (cfg.content.drop (start + 1)))

inductive ConfigCall where
  | next (line : ℕ)
  | get (name : Option Line) (entry : Line) (line : ℕ)
  | set (s : Setting) (index : ℕ)

/-- The call returns, reads nothing that is absent, and gives an empty value as such. -/
def ConfigCall.Total (vars : Variables) (cfg : Config) : ConfigCall → Prop
  | .next line => (configGetNext vars cfg line).1 ≠ .error .fault
  | .get name entry line => Query.Total cfg ⟨vars, name, entry, line⟩
  | .set s index => (configSet vars cfg s index).1 ≠ .error .fault

def ConfigCall.Sound (vars : Variables) (cfg : Config) : ConfigCall → Prop
  | .next line => ∀ before l after, cfg.content.drop line = before ++ l :: after →
      (∀ l ∈ before, Skipped l) → ¬ Nameless l
  | .get name entry line => Query.Sound cfg ⟨vars, name, entry, line⟩
  | .set s index => s.Sound vars cfg index

section Load

variable {text out : List UInt8}

theorem splitOn_append_free {piece rest : List UInt8} (h : 10 ∉ piece) :
    (piece ++ rest).splitOn 10 = (rest.splitOn 10).modifyHead (piece ++ ·) := by
  by_cases hmem : (10 : UInt8) ∈ rest
  · obtain ⟨xs, ys, rfl, hx⟩ := List.eq_append_cons_of_mem hmem
    have hfree : 10 ∉ piece ++ xs := fun hm => (List.mem_append.mp hm).elim h hx
    rw [← List.append_assoc, List.splitOn_append_cons_self_of_not_mem hfree,
      List.splitOn_append_cons_self_of_not_mem hx, List.modifyHead_cons]
  · have hfree : 10 ∉ piece ++ rest := fun hm => (List.mem_append.mp hm).elim h hmem
    rw [List.splitOn_eq_singleton hfree, List.splitOn_eq_singleton hmem, List.modifyHead_cons]

theorem loadLines_eq (out : Line) (text : List UInt8) :
    loadLines out text = (text.splitOn 10).modifyHead (out ++ ·) := by
  induction out, text using loadLines.induct with
  | case1 out text h =>
    rw [loadLines, h, fgets_none.mp h, List.splitOn_nil, List.modifyHead_cons, List.append_nil]
  | case2 out text piece rest h hlast ih =>
    obtain ⟨htext, -, -, hfree, -⟩ := fgets_some (by decide) h
    obtain ⟨piece, rfl⟩ := List.getLast?_eq_some_iff.mp hlast
    rw [List.dropLast_concat] at hfree
    rw [loadLines, h]
    dsimp only
    rw [if_pos hlast, ih, htext, List.append_assoc, List.singleton_append,
      List.splitOn_append_cons_self_of_not_mem hfree, List.modifyHead_cons, List.dropLast_concat]
    congr 1
    exact congrFun List.modifyHead_id _
  | case3 out text piece rest h hlast ih =>
    obtain ⟨htext, hne, -, hfree, -⟩ := fgets_some (by decide) h
    rw [loadLines, h]
    dsimp only
    rw [if_neg hlast, ih, htext, splitOn_append_free (not_mem_of_dropLast hfree hlast),
      List.modifyHead_modifyHead]
    congr 1
    funext line
    exact List.append_assoc out piece line

theorem loadLines_ne_nil (out : Line) (text : List UInt8) : loadLines out text ≠ [] := by
  induction out, text using loadLines.induct with
  | case1 out text h => rw [loadLines, h]; nofun
  | case2 out text piece rest h hlast ih =>
    rw [loadLines, h]
    dsimp only
    rw [if_pos hlast]
    nofun
  | case3 out text piece rest h hlast ih =>
    rw [loadLines, h]
    dsimp only
    rwa [if_neg hlast]

end Load

section Search

variable {entry line : Line} {lines : List Line} {i : ℕ} {vars : Variables} {wanted : Bool}

theorem clear_nil : Clear entry [] := by
  intro before l after h
  cases before <;> cases h

theorem clear_cons : Clear entry (line :: lines) ↔
    ¬ Faulty line ∧ (entryOf line = some entry ∨ Clear entry lines) := by
  constructor
  · intro h
    refine ⟨fun hf => ?_, ?_⟩
    · obtain ⟨l, hl, -⟩ := h [] line lines rfl hf
      cases hl
    · by_cases heq : entryOf line = some entry
      · exact .inl heq
      · refine .inr fun before l after hl hf => ?_
        obtain ⟨l', hl', heq'⟩ := h (line :: before) l after (by rw [hl]; rfl) hf
        rcases List.mem_cons.mp hl' with rfl | hl'
        · exact absurd heq' heq
        · exact ⟨l', hl', heq'⟩
  · rintro ⟨hline, h⟩ before l after hl hf
    cases before with
    | nil =>
      obtain ⟨rfl, -⟩ := List.cons.inj hl
      exact absurd hf hline
    | cons b before =>
      rw [List.cons_append, List.cons.injEq] at hl
      obtain ⟨rfl, hl⟩ := hl
      rcases h with heq | h
      · exact ⟨line, List.mem_cons_self, heq⟩
      · obtain ⟨l', hl', heq⟩ := h before l after hl hf
        exact ⟨l', List.mem_cons_of_mem line hl', heq⟩

theorem Searched.fault_iff {r : Except LineFailure (ℕ × ℕ)} (h : Searched entry i lines r) :
    r = .error .fault ↔ ¬ Clear entry lines := by
  induction h with
  | absent => exact ⟨nofun, fun h => absurd clear_nil h⟩
  | found heq =>
    rw [clear_cons]
    exact ⟨nofun, fun h => absurd ⟨fun hf => (by cases heq.symm.trans hf.2), .inl heq⟩ h⟩
  | fault hf =>
    rw [clear_cons]
    exact ⟨fun _ h => h.1 hf, fun _ => rfl⟩
  | next hp _ ih =>
    rw [clear_cons, ih, and_iff_right hp.1, or_iff_right hp.2]

theorem searchValueFrom_map : (searchValueFrom wanted entry vars i lines).map (fun r => (0, r.1)) =
    searchEntryFrom wanted entry vars i lines := by
  induction lines generalizing vars i with
  | nil => rfl
  | cons line lines ih =>
    rw [searchValueFrom, searchEntryFrom]
    split
    · rfl
    · rcases parseBuffer vars line with (_ | _) | ⟨eout, vout, vars'⟩
      · exact ih
      · rfl
      · dsimp only
        split
        · rfl
        · exact ih

theorem searchEntryFrom_fault_iff : searchEntryFrom wanted entry vars i lines = .error .fault ↔
    ¬ Clear entry (visible wanted lines) :=
  (searchEntryFrom_searched wanted entry vars i lines).fault_iff

theorem Query.search_fault_iff {cfg : Config} {q : Query} :
    q.search cfg = .error .fault ↔ ¬ q.Clear cfg := by
  rw [Query.Clear, ← @searchEntryFrom_fault_iff _ _ (q.line - 1) q.vars,
    ← searchValueFrom_map, ← Query.search]
  rcases q.search cfg with e | r
  · rw [Except.map, Except.error.injEq, Except.error.injEq]
  · exact ⟨nofun, nofun⟩

end Search

section Get

open Relation

variable {cfg : Config} {q q' : Query}

theorem not_acc_of_self {α : Type} {r : α → α → Prop} {a : α} (h : r a a) : ¬ Acc r a := by
  intro hacc
  induction hacc with
  | intro x _ ih => exact ih x h h

theorem Query.Sound.of_refers (h : q.Sound cfg) (hq : Refers cfg q q') : q'.Sound cfg where
  ends := h.ends.inv hq
  clear := fun q'' hq'' => h.clear q'' (.head hq hq'')
  valued := fun q'' hq'' => h.valued q'' (.head hq hq'')

theorem Query.Sound.of_next (hclear : q.Clear cfg)
    (hvalued : ∀ i vars, q.search cfg ≠ .ok (i, none, vars))
    (h : ∀ q', Refers cfg q q' → q'.Sound cfg) : q.Sound cfg where
  ends := ⟨q, fun q' hq => (h q' hq).ends⟩
  clear := by
    intro q'' hq''
    rcases hq''.cases_head with rfl | ⟨q', hq, hq''⟩
    · exact hclear
    · exact (h q' hq).clear q'' hq''
  valued := by
    intro q'' hq''
    rcases hq''.cases_head with rfl | ⟨q', hq, hq''⟩
    · exact hvalued
    · exact (h q' hq).valued q'' hq''

theorem Query.clear_of_search (h : q.search cfg ≠ .error .fault) : q.Clear cfg :=
  not_not.mp fun hc => h (Query.search_fault_iff.mpr hc)

/-- A call that returns a value follows a chain that ends. -/
theorem sound_of_configGet {fuel : ℕ} {r : Option Line × ℕ}
    (h : configGet cfg fuel q = some (.ok r)) : q.Sound cfg := by
  induction fuel generalizing q r with
  | zero => cases h
  | succ fuel ih =>
    rw [configGet] at h
    rcases hs : q.search cfg with (_ | _) | ⟨index, _ | value, vars⟩
    · refine .of_next (Query.clear_of_search (by rw [hs]; nofun)) (by rw [hs]; nofun) ?_
      rintro _ ⟨hs', -, -⟩
      cases hs.symm.trans hs'
    · rw [hs] at h
      cases h
    · rw [hs] at h
      cases h
    · refine .of_next (Query.clear_of_search (by rw [hs]; nofun)) (by rw [hs]; nofun) ?_
      rintro _ ⟨hs', hdollar, hvar⟩
      cases hs.symm.trans hs'
      rw [hs] at h
      dsimp only at h
      rw [if_pos hdollar, hvar] at h
      obtain ⟨r', hr', heq⟩ := Option.map_eq_some_iff.mp h
      rcases r' with e | r'
      · cases heq
      · exact ih hr'

theorem configGet_of_sound (h : q.Sound cfg) : ∃ fuel r, configGet cfg fuel q = some (.ok r) := by
  induction h.ends with
  | intro q _ ih =>
    have hclear := h.clear q .refl
    have hvalued := h.valued q .refl
    rcases hs : q.search cfg with (_ | _) | ⟨index, _ | value, vars⟩
    · exact ⟨1, (none, q.line), by rw [configGet, hs]⟩
    · exact absurd hclear (Query.search_fault_iff.mp hs)
    · exact absurd hs (hvalued index vars)
    · by_cases hdollar : value.head? = some 36
      · cases hvar : variableGet vars value.tail with
        | some var =>
          refine ⟨1, (some var, index + 1), ?_⟩
          rw [configGet, hs]
          dsimp only
          rw [if_pos hdollar, hvar]
        | none =>
          have hq : Refers cfg q ⟨vars, none, value.tail, 0⟩ := .value hs hdollar hvar
          obtain ⟨fuel, ⟨var, line⟩, hr⟩ := ih _ hq (h.of_refers hq)
          refine ⟨fuel + 1, (some (var.getD value), index + 1), ?_⟩
          rw [configGet, hs]
          dsimp only
          rw [if_pos hdollar, hvar]
          dsimp only
          rw [hr]
          rfl
      · refine ⟨1, (some value, index + 1), ?_⟩
        rw [configGet, hs]
        dsimp only
        rw [if_neg hdollar]

theorem Query.total_iff : q.Total cfg ↔ q.Sound cfg := by
  constructor
  · rintro ⟨fuel, value, line, h, -⟩
    exact sound_of_configGet h
  · intro h
    obtain ⟨fuel, ⟨value, line⟩, hr⟩ := configGet_of_sound h
    exact ⟨fuel, value, line, hr, fun i vars hs => absurd hs (h.valued q .refl i vars)⟩

end Get

section Next

variable {vars : Variables} {i : ℕ} {line : Line} {lines : List Line}

theorem exists_first_cons {P Q : Line → Prop} :
    (∃ before l after, line :: lines = before ++ l :: after ∧ (∀ b ∈ before, P b) ∧ Q l) ↔
      Q line ∨ P line ∧ ∃ before l after, lines = before ++ l :: after ∧
        (∀ b ∈ before, P b) ∧ Q l := by
  constructor
  · rintro ⟨before, l, after, h, hp, hq⟩
    rcases List.cons_eq_append_iff.mp h with ⟨rfl, h⟩ | ⟨before, rfl, rfl⟩
    · obtain ⟨rfl, -⟩ := List.cons.inj h
      exact .inl hq
    · obtain ⟨hline, hp⟩ := List.forall_mem_cons.mp hp
      exact .inr ⟨hline, before, l, after, rfl, hp, hq⟩
  · rintro (hq | ⟨hline, before, l, after, rfl, hp, hq⟩)
    · exact ⟨[], line, lines, rfl, nofun, hq⟩
    · exact ⟨line :: before, l, after, rfl, List.forall_mem_cons.mpr ⟨hline, hp⟩, hq⟩

theorem getNextFrom_fault_iff : (getNextFrom vars i lines).1 = .error .fault ↔
    ∃ before line after, lines = before ++ line :: after ∧ (∀ l ∈ before, Skipped l) ∧
      Nameless line := by
  induction lines generalizing vars i with
  | nil => simp [getNextFrom]
  | cons line lines ih =>
    rw [exists_first_cons, getNextFrom, Skipped, Nameless]
    generalize line.dropWhile isBlank = ptr
    by_cases hskip : ptr = [] ∨ isLineCommented ptr
    · simp only [hskip, if_true, ih, not_true_eq_false, false_and, false_or, true_or, true_and]
    rw [if_neg hskip, and_iff_right hskip, or_iff_right hskip]
    by_cases hs : isSection ptr
    · rw [if_pos hs, if_pos hs, or_iff_left fun h => h.1.1 hs]
      rcases parseSectionBuffer_cases vars ptr false with
        ⟨h, hp⟩ | ⟨h, hp⟩ | ⟨-, h, value, vars', hp⟩
      · rw [hp, h]
        exact ⟨nofun, fun hf => nomatch hf.1⟩
      · rw [hp]
        exact ⟨fun _ => h, fun _ => rfl⟩
      · rw [hp]
        exact ⟨nofun, fun hf => absurd hf h⟩
    · rw [if_neg hs, if_neg hs, and_iff_right hs]
      rcases parseBuffer_cases vars ptr with ⟨h, -⟩ | ⟨h, hp⟩ | ⟨-, -, value, vars', hp⟩
      · exact absurd (.inl h) hskip
      · rw [hp]
        exact ⟨fun _ => .inl h.2, fun _ => rfl⟩
      · rw [hp]
        cases he : entryOf ptr with
        | none => exact ⟨fun _ => .inl rfl, fun _ => rfl⟩
        | some entry =>
          dsimp only
          by_cases hdollar : entry.head? = some 36
          · rw [if_pos hdollar, ih]
            exact ⟨fun h => .inr ⟨⟨entry, rfl, hdollar⟩, h⟩, fun h => h.resolve_left nofun |>.2⟩
          · rw [if_neg hdollar]
            refine ⟨nofun, ?_⟩
            rintro (h | ⟨⟨e, he', hd⟩, -⟩)
            · cases h
            · cases he'
              exact absurd hd hdollar

end Next

section Set

variable {vars : Variables} {cfg : Config} {name : Line} {wentry wvalue : Option Line} {i : ℕ}
  {lines : List Line}

theorem searchSectionFrom_fault_iff (hname : entryOf (sectionText name) = wentry) :
    searchSectionFrom wentry wvalue vars i lines = .error .fault ↔
      ∃ before line after, lines = before ++ line :: after ∧ Incomparable name line ∧
        searchSectionFrom wentry wvalue vars i before = .error .error := by
  induction lines generalizing vars i with
  | nil => simp [searchSectionFrom]
  | cons line lines ih =>
    rcases searchSectionFrom_cases hname vars wvalue i line with
      ⟨⟨-, hline⟩, hok⟩ | ⟨hline, hfault⟩ | ⟨⟨-, hline⟩, hnext⟩
    · rw [hok]
      refine iff_of_false (by rintro ⟨⟩) ?_
      rintro ⟨before, l, after, h, hl, hs⟩
      rcases List.cons_eq_append_iff.mp h with ⟨rfl, h⟩ | ⟨before, rfl, rfl⟩
      · obtain ⟨rfl, -⟩ := List.cons.inj h
        exact hline hl
      · cases (hok before).symm.trans hs
    · exact ⟨fun _ => ⟨[], line, lines, rfl, hline, rfl⟩, fun _ => hfault lines⟩
    · rw [hnext, ih]
      constructor
      · rintro ⟨before, l, after, rfl, hl, hs⟩
        exact ⟨line :: before, l, after, rfl, hl, by rw [hnext, hs]⟩
      · rintro ⟨before, l, after, h, hl, hs⟩
        rcases List.cons_eq_append_iff.mp h with ⟨rfl, h⟩ | ⟨before, rfl, rfl⟩
        · obtain ⟨rfl, -⟩ := List.cons.inj h
          exact absurd hl hline
        · exact ⟨before, l, after, rfl, hl, by rw [← hs, hnext]⟩

/-- The search for a section meets one without a name just if it is not found before that. -/
theorem searchSection_fault_iff (hlines : cfg.content ≠ []) {index : ℕ} :
    searchSection vars cfg name index = .error .fault ↔ ¬ SectionClear vars cfg name index := by
  rw [SectionClear]
  rcases parseSectionBuffer_cases vars name true with
    ⟨h, hp⟩ | ⟨h, hp⟩ | ⟨hne, hf, wvalue, vars', hp⟩
  · rw [searchSection, if_neg hlines, hp]
    exact ⟨nofun, fun hc => absurd (.inl h) hc⟩
  · rw [searchSection, if_neg hlines, hp]
    refine ⟨fun _ => not_or.mpr ⟨?_, fun hc => hc.1 h⟩, fun _ => rfl⟩
    intro hnil
    rw [hnil] at h
    cases h.1
  have hfrom (lines : List Line) (b : Bool) (k : ℕ) :
      searchSection vars ⟨cfg.content.take index ++ lines, b⟩ name index = .ok k ↔
        searchSectionFrom (entryOf (sectionText name)) wvalue vars' index
          ((cfg.content.take index ++ lines).drop index) = .ok k := by
    rw [searchSection, hp]
    dsimp only
    split
    next hnil => rw [hnil, List.drop_nil, searchSectionFrom]
    next => rfl
  have hself : searchSection vars cfg name index =
      searchSectionFrom (entryOf (sectionText name)) wvalue vars' index
        (cfg.content.drop index) := by
    rw [searchSection, if_neg hlines, hp]
  rw [hself, or_iff_right hne, and_iff_right hf, searchSectionFrom_fault_iff rfl]
  simp only [hfrom]
  have hdrop {before after : List Line} (h : cfg.content.drop index = before ++ after)
      (hne : before ++ after ≠ []) : (cfg.content.take index ++ before).drop index = before := by
    have hle : index ≤ cfg.content.length := by
      by_contra hgt
      rw [List.drop_eq_nil_of_le (by omega)] at h
      exact hne h.symm
    exact List.drop_left' (by rw [List.length_take]; omega)
  constructor
  · rintro ⟨before, line, after, h, hl, hs⟩ hclear
    obtain ⟨k, hk⟩ := hclear before line after h hl
    rw [hdrop h (by simp)] at hk
    cases hs.symm.trans hk
  · intro hclear
    push Not at hclear
    obtain ⟨before, line, after, h, hl, hs⟩ := hclear
    rw [hdrop h (by simp)] at hs
    rcases hr : searchSectionFrom (entryOf (sectionText name)) wvalue vars' index before with
      (_ | _) | k
    · exact ⟨before, line, after, h, hl, hr⟩
    · obtain ⟨before', line', after', rfl, hl', hs'⟩ := (searchSectionFrom_fault_iff rfl).mp hr
      exact ⟨before', line', after' ++ line :: after, by rw [h]; simp, hl', hs'⟩
    · exact absurd hr (hs k)

theorem visible_false (lines : List Line) : visible false lines = lines := by
  rw [visible, List.takeWhile_eq_self_iff]
  intro line _
  simp

theorem searchEntry_fault_iff {name : Option Line} {entry : Line} {index : ℕ} :
    searchEntry vars cfg name entry index = .error .fault ↔
      ¬ Clear entry (visible name.isSome (cfg.content.drop index)) := by
  rw [searchEntry, searchEntryFrom_fault_iff]

theorem opInsertLine_ne_fault (hne : cfg.content ≠ []) (line : Line) (lins : ℕ) :
    (opInsertLine cfg line lins).1 ≠ .error .fault ∧
      (opInsertLine cfg line lins).2.content ≠ [] := by
  rw [opInsertLine, if_neg hne]
  split
  · exact ⟨nofun, hne⟩
  next h =>
    refine ⟨nofun, List.ne_nil_of_length_pos ?_⟩
    rw [List.length_insertIdx_of_le_length (Nat.not_lt.mp h)]
    omega

theorem newEntryLine_fault_iff (hne : cfg.content ≠ []) {entry : Line} {val : Option Line}
    {index : ℕ} : (newEntryLine vars cfg entry val index).1 = .error .fault ↔
      ¬ Clear entry (cfg.content.drop index) := by
  have hfault := @searchEntry_fault_iff vars cfg none entry index
  rw [Option.isSome_none, visible_false] at hfault
  rw [newEntryLine, ← hfault]
  rcases searchEntry vars cfg none entry index with (_ | _) | ⟨ret, i⟩
  · exact ⟨fun h => absurd h (opInsertLine_ne_fault hne _ _).1, nofun⟩
  · exact ⟨fun _ => rfl, fun _ => rfl⟩
  · exact ⟨nofun, nofun⟩

theorem newSectionLine_fault_iff (hne : cfg.content ≠ []) {entry val : Option Line} {index : ℕ} :
    (newSectionLine vars cfg name entry val index).1 = .error .fault ↔
      ¬ Setting.Sound vars cfg index (.section name entry val) := by
  rw [newSectionLine, Setting.Sound]
  have hfault := @searchSection_fault_iff vars cfg name hne index
  rcases hs : searchSection vars cfg name index with (_ | _) | start
  · have hclear : SectionClear vars cfg name index :=
      not_not.mp fun hc => by cases hs.symm.trans (hfault.mpr hc)
    rw [and_iff_right hclear]
    refine ⟨fun h => ?_, fun h => absurd (fun start h => nomatch h) h⟩
    dsimp only at h
    generalize (if index ≠ 0 then adjustInsertionPoint cfg index else cfg.content.length) = i at h
    obtain ⟨hop, hne'⟩ := opInsertLine_ne_fault hne ((91 :: (name ++ [93])).take 1023) i
    rcases hr : opInsertLine cfg ((91 :: (name ++ [93])).take 1023) i with ⟨e | ⟨⟩, cfg'⟩
    · rw [hr] at h hop
      exact absurd h hop
    · rw [hr] at h hne'
      cases entry with
      | none => cases h
      | some entry => exact absurd h (opInsertLine_ne_fault hne' _ _).1
  · exact ⟨fun _ h => hfault.mp hs h.1, fun _ => rfl⟩
  · have hclear : SectionClear vars cfg name index :=
      not_not.mp fun hc => by cases hs.symm.trans (hfault.mpr hc)
    rw [and_iff_right hclear]
    cases entry with
    | none => exact ⟨nofun, fun h => absurd (fun _ _ _ he => nomatch he) h⟩
    | some entry =>
      have hentry : (∀ start', (.ok start : Except LineFailure ℕ) = .ok start' →
          ∀ k ∈ some entry, Clear k (visible true (cfg.content.drop (start' + 1)))) ↔
            Clear entry (visible true (cfg.content.drop (start + 1))) :=
        ⟨fun h => h start rfl entry rfl, by rintro h _ ⟨⟩ _ ⟨⟩; exact h⟩
      have hfault' := @searchEntry_fault_iff vars cfg (some name) entry (start + 1)
      rw [hentry, ← Option.isSome_some (a := name), ← hfault']
      dsimp only
      rcases searchEntry vars cfg (some name) entry (start + 1) with (_ | _) | ⟨ret, i⟩
      · exact ⟨fun h => absurd h (opInsertLine_ne_fault hne _ _).1, nofun⟩
      · exact ⟨fun _ => rfl, fun _ => rfl⟩
      · exact ⟨nofun, nofun⟩

theorem configSet_fault_iff (hne : cfg.content ≠ []) {s : Setting} {index : ℕ} :
    (configSet vars cfg s index).1 = .error .fault ↔ ¬ s.Sound vars cfg index := by
  cases s with
  | entry key val => exact newEntryLine_fault_iff hne
  | «section» name key val => exact newSectionLine_fault_iff hne

end Set

/-- A call on a configuration comes to an end, with nothing absent read on the way, just if it is
sound. -/
theorem config_call_iff (vars : Variables) (text : List UInt8) (call : ConfigCall) :
    ((∀ line, Within line) ∧ call.Total vars (Config.ofText text)) ↔
      call.Sound vars (Config.ofText text) := by
  rw [and_iff_right within]
  cases call with
  | next line =>
    have hfault : (configGetNext vars (Config.ofText text) line).1 = .error .fault ↔
        ∃ before l after, (Config.ofText text).content.drop line = before ++ l :: after ∧
          (∀ b ∈ before, Skipped b) ∧ Nameless l := by
      rw [configGetNext]
      split
      next h =>
        rw [List.drop_eq_nil_of_le h]
        simp
      next => exact getNextFrom_fault_iff
    rw [ConfigCall.Total, ConfigCall.Sound, ne_eq, hfault]
    push Not
    exact Iff.rfl
  | get name entry line => exact Query.total_iff
  | set s index =>
    exact (not_congr (configSet_fault_iff (loadLines_ne_nil [] text))).trans not_not

/-- The lines `=x`, `a` and `a=$a`. -/
theorem not_total_malformed :
    ¬ (ConfigCall.next 0).Total [] (Config.ofText [61, 120]) ∧
      ¬ (ConfigCall.get none [97] 0).Total [] (Config.ofText [97]) ∧
      ¬ (ConfigCall.get none [97] 0).Total [] (Config.ofText [97, 61, 36, 97]) := by
  have hline {text : List UInt8} (h : 10 ∉ text) : Config.ofText text = ⟨[text], false⟩ := by
    rw [Config.ofText, loadLines_eq, List.splitOn_eq_singleton h]
    rfl
  refine ⟨?_, ?_, ?_⟩
  · rw [hline (by decide)]
    exact fun h => h rfl
  · rw [hline (by decide)]
    intro h
    exact (Query.total_iff.mp h).valued _ .refl 0 [] (by rfl)
  · rw [hline (by decide)]
    intro h
    have hresolve : valueResolveVariable [] [36, 97] = [36, 97] := by
      simp [valueResolveVariable, variableGet]
    have hparse : parseBuffer [] [97, 61, 36, 97] = .ok (some [97], some [36, 97], []) := by
      rw [parseBuffer, if_neg (by decide), if_neg (by decide),
        show valueOf [97, 61, 36, 97] = some [36, 97] by decide, Option.map_some, hresolve]
      rfl
    have hsearch : Query.search ⟨[[97, 61, 36, 97]], false⟩ ⟨[], none, [97], 0⟩ =
        .ok (0, some [36, 97], []) := by
      change searchValueFrom false [97] [] 0 [[97, 61, 36, 97]] = _
      rw [searchValueFrom, if_neg (by simp), hparse]
      rfl
    have hself : Refers ⟨[[97, 61, 36, 97]], false⟩ ⟨[], none, [97], 0⟩ ⟨[], none, [97], 0⟩ :=
      .value hsearch rfl rfl
    have hends := (Query.total_iff.mp h).ends
    exact not_acc_of_self (r := fun q' q => Refers ⟨[[97, 61, 36, 97]], false⟩ q q') hself hends

end LibPrelude
