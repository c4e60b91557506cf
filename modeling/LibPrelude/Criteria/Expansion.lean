import LibPrelude.Criteria.Negation
import LibPrelude.Criteria.Texts
import LibPrelude.Criteria.ValueList

/-! # Lists of values and their expansions

The text of a list of values and the text in which each value has the path and the
relation to itself are read as the two groupings of one expression.
-/

namespace LibPrelude

open Formula (Infix Op)

variable {α : Type}

def opText : Op → List UInt8
  | .and => ascii " && "
  | .or => ascii " || "

/-- The text of an expression, given that of its operands. -/
def infixText (f : α → List UInt8) : Infix α → List UInt8
  | .operand a => f a
  | .paren e => 40 :: (infixText f e ++ [41])
  | .operandThen a op rest => f a ++ (opText op ++ infixText f rest)
  | .parenThen e op rest => 40 :: (infixText f e ++ 41 :: (opText op ++ infixText f rest))

def StartsPlain (text : List UInt8) : Prop := ∃ b w, text = b :: w ∧ NotBlank b

theorem infixText_startsPlain {f : α → List UInt8} (hf : ∀ a, StartsPlain (f a)) (v : Infix α) :
    StartsPlain (infixText f v) := by
  cases v with
  | operand a => exact hf a
  | paren e => exact ⟨40, _, rfl, by decide⟩
  | operandThen a op rest =>
    obtain ⟨b, w, hw, hb⟩ := hf a
    exact ⟨b, _, by rw [infixText, hw, List.cons_append], hb⟩
  | parenThen e op rest => exact ⟨40, _, rfl, by decide⟩

def EndsValue (rest : List UInt8) : Prop := ∀ b w, rest = b :: w → Ends b

/-- From a state the lexer makes tokens of a text and comes back to the state. -/
def Reads (st : LexState) (text : List UInt8) (toks : List Token) (rest : List UInt8) : Prop :=
  criteriaScanner.scan st (text ++ rest) =
    (toks ++ (criteriaScanner.scan st rest).1, (criteriaScanner.scan st rest).2)

section

variable {st : LexState} {text rest : List UInt8} {toks : List Token}

theorem Reads.append {text' : List UInt8} {toks' : List Token}
    (h : Reads st text toks (text' ++ rest)) (h' : Reads st text' toks' rest) :
    Reads st (text ++ text') (toks ++ toks') rest := by
  unfold Reads at h h' ⊢
  rw [List.append_assoc, h, h', List.append_assoc]

theorem reads_operator (op : Op) (hrest : StartsPlain rest) :
    Reads st (opText op) [opToken op] rest := by
  obtain ⟨b, w, rfl, hb⟩ := hrest
  unfold Reads
  cases op with
  | and =>
    change criteriaScanner.scan st (32 :: 38 :: ([38, 32] ++ b :: w)) = _
    rw [scan_blank (by decide)]
    cases hst : st.start with
    | initial =>
      change criteriaScanner.scan st ([38, 38] ++ 32 :: b :: w) = _
      rw [scan_initial_fixed hst [38, 38] (LexAction.token .and) (by decide)
        (by decide +kernel) rfl,
        scan_blank hb]
      rfl
    | idmefValue =>
      change criteriaScanner.scan st ([38, 38] ++ 32 :: b :: w) = _
      rw [scan_value_fixed hst [38, 38] (LexAction.token .and) (by decide) (by decide +kernel) rfl,
        scan_blank hb]
      rfl
  | or =>
    change criteriaScanner.scan st (32 :: 124 :: ([124, 32] ++ b :: w)) = _
    rw [scan_blank (by decide)]
    cases hst : st.start with
    | initial =>
      change criteriaScanner.scan st ([124, 124] ++ 32 :: b :: w) = _
      rw [scan_initial_fixed hst [124, 124] (LexAction.token .or) (by decide)
        (by decide +kernel) rfl,
        scan_blank hb]
      rfl
    | idmefValue =>
      change criteriaScanner.scan st ([124, 124] ++ 32 :: b :: w) = _
      rw [scan_value_fixed hst [124, 124] (LexAction.token .or) (by decide) (by decide +kernel) rfl,
        scan_blank hb]
      rfl

/-- States between which parentheses lead, from each of which operands are read. -/
structure Nesting (f : α → List UInt8) (g : α → List Token) (P : LexState → Prop) : Prop where
  startsPlain : ∀ a, StartsPlain (f a)
  operand : ∀ st, P st → ∀ a rest, EndsValue rest → Reads st (f a) (g a) rest
  parens : ∀ st, P st → ∃ st', P st' ∧
    (∀ rest, criteriaScanner.scan st (40 :: rest) = (.lparen :: (criteriaScanner.scan st' rest).1,
      (criteriaScanner.scan st' rest).2)) ∧
    ∀ rest, criteriaScanner.scan st' (41 :: rest) = (.rparen :: (criteriaScanner.scan st rest).1,
      (criteriaScanner.scan st rest).2)

theorem reads_infix {f : α → List UInt8} {g : α → List Token} {P : LexState → Prop}
    (h : Nesting f g P) (hst : P st) (v : Infix α) (hrest : EndsValue rest) :
    Reads st (infixText f v) (infixTokens g v) rest := by
  have hop (op : Op) (rest : List UInt8) : EndsValue (opText op ++ rest) := by
    rintro b w heq
    cases op <;> exact .inl (List.cons.inj heq).1.symm
  have hclose (rest : List UInt8) : EndsValue (41 :: rest) := by
    rintro b w heq
    exact .inr (List.cons.inj heq).1.symm
  have hplain (v : Infix α) (rest : List UInt8) : StartsPlain (infixText f v ++ rest) := by
    obtain ⟨b, w, hw, hb⟩ := infixText_startsPlain h.startsPlain v
    exact ⟨b, w ++ rest, by rw [hw, List.cons_append], hb⟩
  induction v generalizing st rest with
  | operand a => exact h.operand st hst a rest hrest
  | paren e ih =>
    obtain ⟨st', hst', hopen, hcl⟩ := h.parens st hst
    have he := ih hst' (hclose rest)
    unfold Reads at he ⊢
    rw [infixText, List.cons_append, List.append_assoc, hopen, List.singleton_append, he, hcl]
    simp [infixTokens]
  | operandThen a op v ih =>
    have ha := h.operand st hst a _ (hop op (infixText f v ++ rest))
    exact (Reads.append (by rwa [List.append_assoc])
      (Reads.append (reads_operator op (hplain v rest)) (ih hst hrest)))
  | parenThen e op v ihe ih =>
    obtain ⟨st', hst', hopen, hcl⟩ := h.parens st hst
    have he := ihe hst' (hclose (opText op ++ (infixText f v ++ rest)))
    have hv := Reads.append (reads_operator op (hplain v rest)) (ih hst hrest)
    unfold Reads at he hv ⊢
    rw [infixText, List.cons_append, List.append_assoc, hopen, List.cons_append,
      List.append_assoc, he, hcl, ← List.append_assoc, hv]
    simp [infixTokens]

theorem valueText_startsPlain (v : ValueText) : StartsPlain v.text := by
  obtain ⟨c, w, hw, hc, hnewline⟩ := v.head
  refine ⟨c, w, hw, ?_⟩
  rw [mem_ranges, Bool.bne_true, Bool.not_eq_true', decide_eq_false_iff_not] at hc
  have hblank : ∀ a ∈ ([32, 9, 10] : List UInt8),
      a ∈ ([32, 9, 40, 41, 38, 124] : List UInt8) ∨ a = 10 := by
    simp
  refine (@mem_ranges [32, 9, 10] _ _).trans ?_
  rw [Bool.bne_false, decide_eq_false_iff_not]
  exact fun hmem => (hblank c hmem).elim hc hnewline

theorem nesting_list : Nesting ValueText.text (fun v => [v.token])
    fun st => st.start = .idmefValue ∧ 0 < st.inp where
  startsPlain := valueText_startsPlain
  operand := by
    rintro st ⟨hst, hinp⟩ v rest hrest
    have hpop : st.popAfterValue = st := if_neg hinp.ne'
    unfold Reads
    rw [scan_valueText hst v hrest, hpop]
    rfl
  parens := by
    rintro st ⟨hst, hinp⟩
    refine ⟨{ st with inp := st.inp + 1 }, ⟨hst, by change 0 < st.inp + 1; omega⟩,
      fun rest => ?_, fun rest => ?_⟩
    · exact scan_value_fixed hst [40] (fun st _ => ({ st with inp := st.inp + 1 }, some .lparen))
        (by decide) (by decide +kernel) rfl
    · have hpop : LexState.doPop { st with inp := st.inp + 1 } = st := by
        have : st.inp + 1 - 1 = st.inp := by omega
        simp only [LexState.doPop, this, if_neg hinp.ne']
      refine (scan_value_fixed (by exact hst) [41] (fun st _ => (st.doPop, some .rparen))
        (by decide) (by decide +kernel) rfl).trans ?_
      simp only [hpop]
      rfl

def criterionText (path : PathText) (rel : TokRelation) : List UInt8 :=
  path.text ++ 32 :: (rel.text ++ [32])

theorem relation_startsPlain (rel : TokRelation) : StartsPlain rel.text := by
  cases rel <;> exact ⟨_, _, rfl, by decide⟩

theorem scan_criterion (path : PathText) (rel : TokRelation) (hst : st.start = .initial)
    (hrest : StartsPlain rest) : criteriaScanner.scan st (criterionText path rel ++ rest) =
      (.path path.text :: .relation rel :: (criteriaScanner.scan st.push rest).1,
        (criteriaScanner.scan st.push rest).2) := by
  obtain ⟨b, w, rfl, hb⟩ := hrest
  obtain ⟨c, u, hu, hc⟩ := relation_startsPlain rel
  have hrel := @scan_relation _ (b :: w) hst rel
  rw [scan_blank hb] at hrel
  rw [criterionText, List.append_assoc, List.cons_append, List.append_assoc, scan_path hst path]
  rw [List.singleton_append, hu, List.cons_append, scan_blank hc, ← List.cons_append, ← hu, hrel]

theorem nesting_criteria (path : PathText) (rel : TokRelation) :
    Nesting (fun v => criterionText path rel ++ v.text)
      (fun v : ValueText => [.path path.text, .relation rel, v.token])
      fun st => st.start = .initial ∧ st.inp = 0 where
  startsPlain := by
    intro v
    obtain ⟨b, w, hw, hb⟩ := path_head path.isPath
    exact ⟨b, _, by rw [criterionText, hw, List.cons_append, List.cons_append], hb⟩
  operand := by
    rintro st ⟨hst, hinp⟩ v rest hrest
    obtain ⟨b, w, hw, hb⟩ := valueText_startsPlain v
    have hplain : StartsPlain (v.text ++ rest) := ⟨b, w ++ rest, by rw [hw, List.cons_append], hb⟩
    have hpop : st.push.popAfterValue = st := by
      cases st
      simp_all [LexState.popAfterValue, LexState.push, LexState.pop]
    unfold Reads
    rw [List.append_assoc, scan_criterion path rel hst hplain, scan_valueText rfl v hrest, hpop]
    rfl
  parens := by
    rintro st ⟨hst, hinp⟩
    refine ⟨st, ⟨hst, hinp⟩, fun rest => ?_, fun rest => ?_⟩
    · exact scan_initial_fixed hst [40] (LexAction.token .lparen) (by decide)
        (by decide +kernel) rfl
    · exact scan_initial_fixed hst [41] (LexAction.token .rparen) (by decide)
        (by decide +kernel) rfl

end

def listText (path : PathText) (rel : TokRelation) (v : Infix ValueText) : List UInt8 :=
  criterionText path rel ++ 40 :: (infixText ValueText.text v ++ [41])

/-- The text in which each value has the path and the relation to itself. -/
def expandedText (path : PathText) (rel : TokRelation) (v : Infix ValueText) : List UInt8 :=
  infixText (fun w => criterionText path rel ++ w.text) v

theorem listText_tokens (path : PathText) (rel : TokRelation) (v : Infix ValueText) :
    criteriaTokens (listText path rel v) = .path path.text :: .relation rel :: .lparen ::
      (infixTokens (fun w => [w.token]) v ++ [.rparen]) := by
  have hplain : StartsPlain (40 :: (infixText ValueText.text v ++ [41])) :=
    ⟨40, _, rfl, by decide⟩
  have hclose : EndsValue [41] := by
    rintro b w heq
    exact .inr (List.cons.inj heq).1.symm
  let st : LexState := ⟨.idmefValue, [.initial], 1⟩
  have hlist : criteriaScanner.scan st (infixText ValueText.text v ++ [41]) =
      (infixTokens (fun w => [w.token]) v ++ (criteriaScanner.scan st [41]).1,
        (criteriaScanner.scan st [41]).2) :=
    reads_infix nesting_list ⟨rfl, by decide⟩ v hclose
  have hopen : criteriaScanner.scan initLexer.push (40 :: (infixText ValueText.text v ++ [41])) =
      (.lparen :: (criteriaScanner.scan st (infixText ValueText.text v ++ [41])).1,
        (criteriaScanner.scan st (infixText ValueText.text v ++ [41])).2) :=
    scan_value_fixed rfl [40] (fun st _ => ({ st with inp := st.inp + 1 }, some .lparen))
      (by decide) (by decide +kernel) rfl
  rw [criteriaTokens, listText, scan_criterion path rel rfl hplain, hopen, hlist]
  rfl

theorem expandedText_tokens (path : PathText) (rel : TokRelation) (v : Infix ValueText) :
    criteriaTokens (expandedText path rel v) =
      infixTokens (fun w => [.path path.text, .relation rel, w.token]) v := by
  have h : Reads initLexer (infixText (fun w => criterionText path rel ++ w.text) v)
      (infixTokens (fun w => [.path path.text, .relation rel, w.token]) v) [] :=
    reads_infix (nesting_criteria path rel) ⟨rfl, rfl⟩ v nofun
  unfold Reads at h
  rw [List.append_nil] at h
  rw [criteriaTokens, expandedText, h]
  exact List.append_nil _

def letterText (c : UInt8) (hc : c ∈ ascii "ab") : ValueText where
  text := [39, c, 39]
  kind := .sqstring
  isValue := by
    rw [Rx.matches_iff_nullable]
    revert c
    decide +kernel
  isWord := nofun

def letter (b : Bool) : ValueText :=
  if b then letterText 97 (by decide) else letterText 98 (by decide)

def messageidText : PathText where
  text := ascii "alert.messageid"
  isPath := by
    rw [Rx.matches_iff_nullable]
    decide +kernel
  notRelation := by decide

def letterCriterion (b : Bool) : ParsedCriterion :=
  ⟨messageidPath, some (.value (.string ⟨some (if b then ascii "a" else ascii "b")⟩)),
    criterionEqual⟩

def namedAlert : Obj :=
  .struct .message 1 [.ptr (some (.prim 1 (.string preludeStringNew))),
    .union 1 (some (match idmefNew ⟨0, 0, 0⟩ .alert with
      | .struct cls rc (_ :: fs) =>
        .struct cls rc (.ptr (some (.prim 1 (.string ⟨some (ascii "a")⟩))) :: fs)
      | o => o))]

theorem namedAlert_hasType : HasType (.struct .message) namedAlert := by
  refine ⟨by decide, rfl, ⟨by decide, rfl⟩, ⟨by decide, by decide, rfl, ?_⟩, trivial⟩
  repeat' constructor

theorem messageidText_path : idmefPathNewFast messageidText.text = .ok messageidPath := by
  apply idmefPathNewFast_eq
  decide +kernel

theorem letter_criterion (pl : CriteriaPlatform) (b : Bool) :
    valueCriteria pl messageidPath TokRelation.equal.operator (letter b).token =
      .ok (letterCriterion b) := by
  cases b <;> rfl

theorem letter_match (pl : Platform) (b : Bool) :
    criterionMatch pl namedAlert (letterCriterion b) = .ok b := by
  cases b <;> rfl

theorem token_isValue (v : ValueText) : v.token.isValue := by
  unfold ValueText.token
  cases v.kind <;> rfl

theorem sameCriteria_list_iff {pl : CriteriaPlatform} (path : PathText) (rel : TokRelation)
    (v : Infix ValueText) :
    SameCriteria pl (listText path rel v) (expandedText path rel v) ↔
      ∀ p w, idmefPathNewFast path.text = .ok p →
        v.traverse (fun a => valueCriteria pl p rel.operator a.token) = .ok w →
        (Fits (listPeak 3 v) ↔ Fits (criteriaPeak 0 false false v)) ∧
          (Fits (listPeak 3 v) → ∀ object, HasType (.struct .message) object →
            w.rightward.eval Formula.lenient (criterionMatch pl.toPlatform object) =
              w.byPrecedence.eval Formula.lenient (criterionMatch pl.toPlatform object)) := by
  have hlist (r : ParsedCriteria) := @parse_listTokens _ pl r _ path.text rel token_isValue v
  have hexpanded (r : ParsedCriteria) :=
    @parse_criteriaTokens _ pl r _ path.text rel token_isValue v
  simp only [sameCriteria_iff, listText_tokens, expandedText_tokens, hlist, hexpanded]
  constructor
  · rintro ⟨hread, hmatch⟩ p w hp hw
    constructor
    · constructor
      · intro hfits
        obtain ⟨t, p', hp', hfits', -⟩ := hread.mp ⟨_, p, hp, hfits, w, hw, rfl⟩
        exact hfits'
      · intro hfits
        obtain ⟨t, p', hp', hfits', -⟩ := hread.mpr ⟨_, p, hp, hfits, w, hw, rfl⟩
        exact hfits'
    · intro hfits object hobject
      obtain ⟨t, p', hp', hfits', -⟩ := hread.mp ⟨_, p, hp, hfits, w, hw, rfl⟩
      exact hmatch _ _ ⟨p, hp, hfits, w, hw, rfl⟩ ⟨p, hp, hfits', w, hw, rfl⟩ object hobject
  · intro h
    constructor
    · constructor
      · rintro ⟨t, p, hp, hfits, w, hw, rfl⟩
        exact ⟨_, p, hp, (h p w hp hw).1.mp hfits, w, hw, rfl⟩
      · rintro ⟨t, p, hp, hfits, w, hw, rfl⟩
        exact ⟨_, p, hp, (h p w hp hw).1.mpr hfits, w, hw, rfl⟩
    · rintro t t' ⟨p, hp, hfits, w, hw, rfl⟩ ⟨p', hp', -, w', hw', rfl⟩ object hobject
      cases hp.symm.trans hp'
      cases hw.symm.trans hw'
      exact (h p w hp hw).2 hfits object hobject

theorem letters_match (pl : Platform) (e : Infix Bool) :
    (e.map letterCriterion).rightward.eval Formula.lenient (criterionMatch pl namedAlert) =
        .ok (e.rightward.truth id) ∧
      (e.map letterCriterion).byPrecedence.eval Formula.lenient (criterionMatch pl namedAlert) =
        .ok (e.byPrecedence.truth id) := by
  have hmatch : criterionMatch pl namedAlert ∘ letterCriterion = fun b => .ok b :=
    funext (letter_match pl)
  rw [Infix.rightward_map, Infix.byPrecedence_map, Formula.eval_map, Formula.eval_map, hmatch]
  exact ⟨Formula.eval_lenient_ok fun b => rfl, Formula.eval_lenient_ok fun b => rfl⟩

theorem letters_traverse {pl : CriteriaPlatform} (e : Infix Bool) : (e.map letter).traverse
    (fun a => valueCriteria pl messageidPath TokRelation.equal.operator a.token) =
      .ok (e.map letterCriterion) :=
  @Infix.traverse_map Bool ValueText ErrorCode ParsedCriterion
    (fun a => valueCriteria pl messageidPath TokRelation.equal.operator a.token) letter
    letterCriterion (letter_criterion pl) e

theorem sameCriteria_letters {pl : CriteriaPlatform} {e : Infix Bool}
    (h : SameCriteria pl (listText messageidText .equal (e.map letter))
      (expandedText messageidText .equal (e.map letter))) :
    (Fits (listPeak 3 e) ↔ Fits (criteriaPeak 0 false false e)) ∧
      (Fits (listPeak 3 e) → ¬ e.Distinguishes) := by
  obtain ⟨hfits, hmatch⟩ := (sameCriteria_list_iff messageidText .equal (e.map letter)).mp h
    messageidPath (e.map letterCriterion) messageidText_path (letters_traverse e)
  rw [listPeak_map] at hfits hmatch
  rw [criteriaPeak_map] at hfits
  refine ⟨hfits, fun hroom hdiff => hdiff ?_⟩
  obtain ⟨hright, hprecedence⟩ := letters_match pl.toPlatform e
  have := hmatch hroom namedAlert namedAlert_hasType
  rw [hright, hprecedence] at this
  exact Except.ok.inj this

/-- Values are read with the same path and relation to the same criteria, so that a list and its
expansion differ in the room on the stack and in the grouping. -/
theorem value_list_iff (pl : CriteriaPlatform) (s : Infix Unit) :
    (∀ path rel v, (Infix.map (fun _ => ()) v) = s →
      SameCriteria pl (listText path rel v) (expandedText path rel v)) ↔
    (Fits (listPeak 3 s) ↔ Fits (criteriaPeak 0 false false s)) ∧
      (Fits (listPeak 3 s) → s.NoOrAfterAnd) := by
  constructor
  · intro h
    have hletters (e : Infix Bool) (he : (e.map fun _ => ()) = s) :
        (Fits (listPeak 3 s) ↔ Fits (criteriaPeak 0 false false s)) ∧
          (Fits (listPeak 3 s) → ¬ e.Distinguishes) := by
      have := sameCriteria_letters (h messageidText .equal (e.map letter) (by
        rw [Infix.map_map]
        exact he))
      rwa [← he, listPeak_map, criteriaPeak_map]
    have hconst : ((s.map fun _ => true).map fun _ => ()) = s := by
      rw [Infix.map_map]
      exact Infix.map_unit s
    refine ⟨(hletters _ hconst).1, fun hroom => ?_⟩
    by_contra hor
    obtain ⟨e, he, hdiff⟩ := Infix.exists_distinguishes hor
    exact (hletters e he).2 hroom hdiff
  · rintro ⟨hfits, hgroups⟩ path rel v rfl
    rw [listPeak_map] at hfits hgroups
    rw [criteriaPeak_map] at hfits
    rw [sameCriteria_list_iff]
    intro p w hp hw
    refine ⟨hfits, fun hroom object _ => ?_⟩
    have hw : w.NoOrAfterAnd := by
      rw [← Infix.noOrAfterAnd_map (fun _ => ()), Infix.traverse_shape hw]
      exact hgroups hroom
    exact (Infix.eval_byPrecedence hw).symm

def plainCriteriaPlatform : CriteriaPlatform where
  toPlatform := plainPlatform
  unicodeToString := fun _ => .error .generic
  sscanfHex := fun _ => none

def mixedList : Infix Bool := .operandThen false .and (.operandThen true .or (.operand true))

theorem mixedList_differs : listText messageidText .equal (mixedList.map letter) =
      ascii "alert.messageid = ('b' && 'a' || 'a')" ∧
    ¬ SameCriteria plainCriteriaPlatform
      (listText messageidText .equal (mixedList.map letter))
      (expandedText messageidText .equal (mixedList.map letter)) := by
  refine ⟨by decide +kernel, fun h => ?_⟩
  have hdiff : mixedList.Distinguishes := by
    unfold Infix.Distinguishes
    decide +kernel
  exact (sameCriteria_letters h).2 (by decide) hdiff

end LibPrelude
