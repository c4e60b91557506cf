import LibPrelude.Options.Arguments

/-! # The order of arguments

Arguments that are handled keep their places and the others follow in order. This is so unless
there are two dashes: of the arguments behind them every other one is taken out and the last one
many times, and the arguments that were taken out before count twice.
-/

namespace LibPrelude

variable {σ : Type}

/-- The arguments that are handled, those that are not, and those behind two dashes. -/
structure Sorted where
  handled : List (List UInt8)
  unhandled : List (List UInt8)
  rest : Option (List (List UInt8))

def Sorted.after (s : Sorted) (handled unhandled : List (List UInt8)) : Sorted :=
  { s with handled := handled ++ s.handled, unhandled := unhandled ++ s.unhandled }

/-- The option of a name among the innermost options where there is one, and the options that
enclose it. -/
def resolveOption (ctx : OptionContext σ) (name : List UInt8) :
    PreludeOption → List PreludeOption →
      Option PreludeOption × PreludeOption × List PreludeOption
  | optlist, [] => ((findOption ctx optlist name).1, optlist, [])
  | optlist, parent :: outer =>
    match (findOption ctx optlist name).1 with
    | some opt => (some opt, optlist, parent :: outer)
    | none => resolveOption ctx name parent outer

/-- The options among which those of the next argument are looked up. -/
def enter (opt optlist : PreludeOption) (outer : List PreludeOption) :
    PreludeOption × List PreludeOption :=
  if opt.optlist = [] then (optlist, outer) else (opt, optlist :: outer)

/-- The arguments one after the other, without the vector. -/
def sortWords (ctx : OptionContext σ) :
    PreludeOption → List PreludeOption → List (List UInt8) → Sorted
  | _, _, [] => ⟨[], [], none⟩
  | optlist, outer, word :: words =>
    match readWord word with
    | .plain => (sortWords ctx optlist outer words).after [] [word]
    | .dashes => ⟨[word], [], some words⟩
    | .other => (sortWords ctx optlist outer words).after [word] []
    | .option name value =>
      match resolveOption ctx name optlist outer with
      | (none, optlist, outer) => (sortWords ctx optlist outer words).after [] [word]
      | (some opt, optlist, outer) =>
        let inner := enter opt optlist outer
        if opt.info.hasArg = argumentRequired ∧ value = none then
          match words with
          | [] => ⟨[word], [], none⟩
          | arg :: words => (sortWords ctx inner.1 inner.2 words).after [word, arg] []
        else (sortWords ctx inner.1 inner.2 words).after [word] []

/-- The arguments in their new order. -/
def Sorted.words (s : Sorted) : List (List UInt8) := s.handled ++ (s.unhandled ++ s.rest.getD [])

theorem Sorted.words_after (s : Sorted) (hs us : List (List UInt8)) :
    (s.after hs us).words.Perm (hs ++ us ++ s.words) := by
  simp only [words, after, List.append_assoc]
  exact .append_left hs (List.perm_append_comm_assoc _ _ _)

/-- The arguments only change their places. -/
theorem sortWords_perm (ctx : OptionContext σ) (optlist : PreludeOption)
    (outer : List PreludeOption) (words : List (List UInt8)) :
    (sortWords ctx optlist outer words).words.Perm words := by
  fun_induction sortWords ctx optlist outer words with
  | case1 => exact .refl _
  | case2 optlist outer word words _ ih => exact (Sorted.words_after _ _ _).trans (ih.cons word)
  | case3 => exact .refl _
  | case4 optlist outer word words _ ih => exact (Sorted.words_after _ _ _).trans (ih.cons word)
  | case5 optlist outer word words _ _ _ _ _ _ ih =>
    exact (Sorted.words_after _ _ _).trans (ih.cons word)
  | case6 => exact .refl _
  | case7 optlist outer word _ _ _ _ _ _ _ _ _ arg words ih =>
    exact (Sorted.words_after _ _ _).trans ((ih.cons arg).cons word)
  | case8 optlist outer word words _ _ _ _ _ _ _ _ _ ih =>
    exact (Sorted.words_after _ _ _).trans (ih.cons word)

/-- The state is between arguments: some are handled, some are to come, and behind them there are
as many copies of the last one as were taken out. -/
structure Between (last : List UInt8) (st : Arguments σ) (handled words : List (List UInt8)) :
    Prop where
  argv : st.argv = handled ++ words ++ List.replicate st.unhandled.length last
  last : st.argv.getLast? = some last
  index : st.index = handled.length ∨ words = [] ∧ handled.length ≤ st.index

section

variable {ctx : OptionContext σ} {st st' : Arguments σ} {last word : List UInt8}
  {handled words xs : List (List UInt8)} {optlist opt : PreludeOption} {outer : List PreludeOption}
  {n i : ℕ}

theorem shiftDown_cons (a : List UInt8) (l : List (List UInt8)) :
    shiftDown (a :: l) = l ++ [(a :: l).getLast (List.cons_ne_nil _ _)] := by
  induction l generalizing a with
  | nil => rfl
  | cons b l ih => rw [shiftDown, ih, List.cons_append, List.getLast_cons (List.cons_ne_nil b l)]

theorem Between.length (h : Between last st handled words) :
    st.argv.length = handled.length + words.length + st.unhandled.length := by
  simp [h.argv, Nat.add_assoc]

theorem Between.index_eq (h : Between last st handled (word :: words)) :
    st.index = handled.length :=
  h.index.resolve_right fun hw => nomatch hw.1

theorem Between.getD (h : Between last st handled (word :: words)) :
    st.argv.getD handled.length [] = word := by
  rw [List.getD_eq_getElem?_getD, h.argv]
  simp

theorem Between.handle (h : Between last st handled (word :: words)) :
    Between last { st with index := st.index + 1 } (handled ++ [word]) words where
  argv := by simp [h.argv]
  last := h.last
  index := .inl (by simp [h.index_eq])

theorem removeArgv_between (h : Between last st handled (word :: words)) :
    ∃ st', removeArgv st st.index = .ok st' ∧ st'.unhandled = st.unhandled ++ [word] ∧
      Between last st' handled words := by
  have hlen := h.length
  rw [List.length_cons] at hlen
  have hdrop : st.argv.drop handled.length =
      word :: (words ++ List.replicate st.unhandled.length last) := by
    rw [h.argv, List.append_assoc, List.drop_left]
    rfl
  have hlast : (word :: (words ++ List.replicate st.unhandled.length last)).getLast
      (List.cons_ne_nil _ _) = last := by
    have := h.last
    rw [h.argv, List.append_assoc, List.getLast?_append_of_ne_nil _ (by simp),
      List.getLast?_eq_some_getLast (by simp)] at this
    simpa using this
  have hshift : st.argv.take handled.length ++ shiftDown (st.argv.drop handled.length) =
      handled ++ words ++ List.replicate (st.unhandled.length + 1) last := by
    rw [hdrop, shiftDown_cons, hlast, h.argv, List.append_assoc, List.take_left,
      List.replicate_succ', List.append_assoc, List.append_assoc]
  refine ⟨_, if_neg (by omega), by rw [h.index_eq, h.getD], ?_⟩
  rw [h.index_eq, hshift, h.getD]
  exact ⟨by simp, by simp [List.replicate_succ'], .inl rfl⟩

/-- The options among which the arguments are looked up once an option has no more of its own. -/
def sortAfter (ctx : OptionContext σ) (outer : List PreludeOption)
    (words : List (List UInt8)) : Sorted :=
  match outer with
  | [] => ⟨[], [], none⟩
  | optlist :: outer => sortWords ctx optlist outer words

/-- How the reading of arguments ends: a callback fails, the arguments or those of an option have
come to an end, or there are two dashes. -/
inductive ReadingOutcome (ctx : OptionContext σ) (optlist : PreludeOption)
    (outer : List PreludeOption)
    (last : List UInt8) (st : Arguments σ) (handled words : List (List UInt8)) :
    Except OptionFailure (Arguments σ) → Prop
  | rejected : ReadingOutcome ctx optlist outer last st handled words (.error .rejected)
  | returned {st' : Arguments σ} {hs us ws : List (List UInt8)} :
      Between last st' (handled ++ hs) ws → st'.unhandled = st.unhandled ++ us →
      ws.length ≤ words.length → (outer = [] → ws = []) →
      sortWords ctx optlist outer words = (sortAfter ctx outer ws).after hs us →
      ReadingOutcome ctx optlist outer last st handled words (.ok st')
  | dashes {st' : Arguments σ} {hs us ws : List (List UInt8)} :
      Between last st' (handled ++ hs) ws → st'.index = (handled ++ hs).length →
      st'.unhandled = st.unhandled ++ us →
      sortWords ctx optlist outer words = ⟨hs, us, some ws⟩ →
      ReadingOutcome ctx optlist outer last st handled words
        (removeFrom (st'.argv.length - st'.index) st'.index st')

theorem Sorted.after_after (s : Sorted) (a b c d : List (List UInt8)) :
    (s.after a b).after c d = s.after (c ++ a) (d ++ b) := by
  simp [Sorted.after]

/-- The first arguments are handled or taken out, and then the reading goes on. -/
theorem ReadingOutcome.cons {optlist' : PreludeOption} {hs us ws : List (List UInt8)}
    {r : Except OptionFailure (Arguments σ)}
    (h : ReadingOutcome ctx optlist' outer last st' (handled ++ hs) ws r)
    (hu : st'.unhandled = st.unhandled ++ us) (hlen : ws.length ≤ words.length)
    (hsort : sortWords ctx optlist outer words = (sortWords ctx optlist' outer ws).after hs us) :
    ReadingOutcome ctx optlist outer last st handled words r := by
  cases h with
  | rejected => exact .rejected
  | returned hb hu' hlen' hnil hsort' =>
    rw [List.append_assoc] at hb
    refine .returned hb (by rw [hu', hu, List.append_assoc]) (hlen'.trans hlen) hnil ?_
    rw [hsort, hsort', Sorted.after_after]
  | dashes hb hi hu' hsort' =>
    rw [List.append_assoc] at hb hi
    refine .dashes hb hi (by rw [hu', hu, List.append_assoc]) ?_
    rw [hsort, hsort']
    rfl

theorem removeFrom_ok (h : removeFrom n i st = .ok st') :
    st'.argv.length = st.argv.length ∧ st'.index = st.index ∧
      st'.unhandled.length = st.unhandled.length + n := by
  induction n generalizing i st with
  | zero =>
    cases h
    exact ⟨rfl, rfl, rfl⟩
  | succ n ih =>
    rw [removeFrom, removeArgv] at h
    split_ifs at h with hfull
    obtain ⟨hlen, hindex, hu⟩ := ih h
    refine ⟨hlen.trans ?_, hindex, hu.trans (by simp; omega)⟩
    rw [List.length_append]
    have hshift (l : List (List UInt8)) : (shiftDown l).length = l.length := by
      cases l with
      | nil => rfl
      | cons a l => simp [shiftDown_cons]
    rw [hshift, ← List.length_append, List.take_append_drop]

theorem sortAfter_nil (outer : List PreludeOption) : sortAfter ctx outer [] = ⟨[], [], none⟩ := by
  cases outer <;> simp [sortAfter, sortWords]

theorem sortWords_nil : sortWords ctx optlist outer [] = ⟨[], [], none⟩ := by
  rw [sortWords]

theorem Sorted.after_nil (s : Sorted) : s.after [] [] = s := rfl

theorem Between.done_iff (h : Between last st handled words) :
    st.argv.length - st.unhandled.length ≤ st.index ↔ words = [] := by
  have hlen := h.length
  constructor
  · intro hle
    cases words with
    | nil => rfl
    | cons word words =>
      rw [h.index_eq, List.length_cons] at *
      omega
  · rintro rfl
    have : handled.length ≤ st.index := by
      rcases h.index with hi | ⟨-, hi⟩
      · exact hi.ge
      · exact hi
    rw [List.length_nil] at hlen
    omega

theorem parseArgument_done {fuel depth : ℕ} {ignore : Bool}
    (h : st.argv.length - st.unhandled.length ≤ st.index) (hf : 0 < fuel) :
    parseArgument ctx fuel optlist depth ignore st = .ok st := by
  obtain ⟨fuel, rfl⟩ := Nat.exists_eq_add_of_le' hf
  rw [parseArgument, if_pos h]

theorem handleOption_outcome {fuel : ℕ} {ignore : Bool} {value : Option (List UInt8)}
    {hs ws : List (List UInt8)}
    (ih : ∀ optlist outer ignore (st : Arguments σ) handled words, Between last st handled words →
      words.length < fuel → ReadingOutcome ctx optlist outer last st handled words
        (parseArgument ctx fuel optlist outer.length ignore st))
    (hb : Between last st' (handled ++ hs) ws) (hu : st'.unhandled = st.unhandled)
    (hlt : ws.length < fuel) (hlen : ws.length ≤ words.length)
    (hsort : sortWords ctx optlist outer words =
      (sortWords ctx (enter opt optlist outer).1 (enter opt optlist outer).2 ws).after hs []) :
    ReadingOutcome ctx optlist outer last st handled words
      (if ¬ checkOption ctx.roots opt value then .error .rejected
      else
        match if ignore then some st'.context else ctx.call st'.context opt value with
        | none => .error .rejected
        | some context =>
          if opt.optlist = [] then
            parseArgument ctx fuel optlist outer.length ignore { st' with context }
          else
            match parseArgument ctx fuel opt (outer.length + 1) ignore { st' with context } with
            | .error e => .error e
            | .ok st => parseArgument ctx fuel optlist outer.length false st) := by
  by_cases hcheck : checkOption ctx.roots opt value
  · rw [if_neg (not_not.mpr hcheck)]
    cases (if ignore then some st'.context else ctx.call st'.context opt value) with
    | none => exact .rejected
    | some context =>
      have hb' : Between last { st' with context } (handled ++ hs) ws :=
        ⟨hb.argv, hb.last, hb.index⟩
      have hu' : ({ st' with context } : Arguments σ).unhandled = st.unhandled ++ [] := by
        rw [List.append_nil]
        exact hu
      dsimp only
      by_cases hleaf : opt.optlist = []
      · rw [if_pos hleaf]
        rw [enter, if_pos hleaf] at hsort
        exact (ih optlist outer ignore _ _ ws hb' hlt).cons hu' hlen hsort
      · rw [if_neg hleaf]
        rw [enter, if_neg hleaf] at hsort
        have hin := ih opt (optlist :: outer) ignore _ _ ws hb' hlt
        rw [List.length_cons] at hin
        generalize parseArgument ctx fuel opt (outer.length + 1) ignore _ = r at hin
        cases hin with
        | rejected => exact .rejected
        | @returned st₁ hs₁ us₁ ws₁ hb₁ hu₁ hlen₁ _ hsort₁ =>
          rw [List.append_assoc] at hb₁
          have hu₂ : st₁.unhandled = st.unhandled ++ us₁ := by rw [hu₁, hu', List.append_nil]
          refine (ih optlist outer false _ _ _ hb₁ (hlen₁.trans_lt hlt)).cons hu₂
            (hlen₁.trans hlen) ?_
          rw [hsort, hsort₁, Sorted.after_after]
          rfl
        | @dashes st₁ hs₁ us₁ ws₁ hb₁ hi₁ hu₁ hsort₁ =>
          have hout : ReadingOutcome ctx optlist outer last st handled words
              (removeFrom (st₁.argv.length - st₁.index) st₁.index st₁) := by
            rw [List.append_assoc] at hb₁ hi₁
            have hu₂ : st₁.unhandled = st.unhandled ++ us₁ := by rw [hu₁, hu', List.append_nil]
            refine .dashes hb₁ hi₁ hu₂ ?_
            rw [hsort, hsort₁]
            rfl
          cases hr : removeFrom (st₁.argv.length - st₁.index) st₁.index st₁ with
          | error e =>
            rw [hr] at hout
            exact hout
          | ok st₂ =>
            rw [hr] at hout
            obtain ⟨hlen₂, hi₂, hu₂⟩ := removeFrom_ok hr
            dsimp only
            rw [parseArgument_done (by omega) (by omega)]
            exact hout
  · rw [if_pos hcheck]
    exact .rejected

/-- The reading of arguments sorts them. -/
theorem parseArgument_outcome : ∀ (fuel : ℕ) (optlist : PreludeOption)
    (outer : List PreludeOption) (ignore : Bool) (st : Arguments σ)
    (handled words : List (List UInt8)), Between last st handled words → words.length < fuel →
      ReadingOutcome ctx optlist outer last st handled words
        (parseArgument ctx fuel optlist outer.length ignore st) := by
  intro fuel
  induction fuel with
  | zero => nofun
  | succ fuel ih =>
    intro optlist outer ignore st handled words hb hlt
    cases words with
    | nil =>
      rw [parseArgument_done (hb.done_iff.mpr rfl) (Nat.succ_pos _)]
      refine .returned (by rwa [List.append_nil]) (List.append_nil _).symm le_rfl (fun _ => rfl) ?_
      rw [sortAfter_nil, sortWords_nil, Sorted.after_nil]
    | cons word words =>
      rw [List.length_cons, Nat.add_lt_add_iff_right] at hlt
      rw [parseArgument, if_neg (mt hb.done_iff.mp (List.cons_ne_nil _ _)), parseOption]
      rw [show st.argv.getD st.index [] = word by rw [hb.index_eq, hb.getD]]
      dsimp only
      cases hw : readWord word with
      | plain =>
        obtain ⟨st', hst', hu, hb'⟩ := removeArgv_between hb
        rw [hst']
        rw [← List.append_nil handled] at hb'
        refine (ih optlist outer ignore st' _ words hb' hlt).cons hu (by simp) ?_
        rw [sortWords, hw]
      | dashes =>
        have hi : st.index + 1 = (handled ++ [word]).length := by simp [hb.index_eq]
        have hout : ReadingOutcome ctx optlist outer last st handled (word :: words)
            (removeFrom (st.argv.length - (st.index + 1)) (st.index + 1)
              { st with index := st.index + 1 }) := by
          refine .dashes hb.handle hi (List.append_nil st.unhandled).symm ?_
          rw [sortWords, hw]
        dsimp only
        generalize removeFrom _ (st.index + 1) _ = r at hout ⊢
        cases r <;> exact hout
      | other =>
        refine (ih optlist outer ignore _ _ words hb.handle hlt).cons
          (List.append_nil st.unhandled).symm (by simp) ?_
        rw [sortWords, hw]
      | option name value =>
        dsimp only
        rcases hfind : findOption ctx optlist name with ⟨_ | opt, generic⟩
        · cases outer with
          | nil =>
            obtain ⟨st', hst', hu, hb'⟩ := removeArgv_between hb
            rw [← List.append_nil handled] at hb'
            dsimp only
            rw [if_neg (by simp)]
            have hst : ({ st with index := st.index + 1 - 1 } : Arguments σ) = st := rfl
            rw [hst, Nat.add_sub_cancel, hst']
            refine (ih optlist [] _ st' _ words hb' hlt).cons hu (by simp) ?_
            rw [sortWords, hw]
            dsimp only
            rw [resolveOption, hfind]
          | cons parent outer =>
            dsimp only
            rw [if_pos (by simp)]
            refine .returned (by rwa [List.append_nil]) (List.append_nil _).symm le_rfl nofun ?_
            rw [sortAfter, Sorted.after_nil, sortWords, sortWords, hw]
            dsimp only
            rw [resolveOption, hfind]
        · have hresolve : resolveOption ctx name optlist outer = (some opt, optlist, outer) := by
            cases outer <;> rw [resolveOption, hfind]
          dsimp only
          by_cases harg : opt.info.hasArg = argumentRequired ∧ value = none
          · cases words with
            | nil =>
              have hsort : sortWords ctx optlist outer [word] =
                  (sortWords ctx (enter opt optlist outer).1 (enter opt optlist outer).2 []).after
                    [word] [] := by
                rw [sortWords_nil, sortWords, hw]
                dsimp only
                rw [hresolve]
                dsimp only
                rw [if_pos harg]
                rfl
              have hb' : Between last { st with index := st.index + 1 + 1 }
                  (handled ++ [word]) [] :=
                ⟨hb.handle.argv, hb.last, .inr ⟨rfl, by simp [hb.index_eq]⟩⟩
              by_cases hstale : opt.info.hasArg = argumentRequired ∧ value = none ∧
                  st.index + 1 < st.argv.length
              · rw [if_pos hstale]
                exact handleOption_outcome ih hb' rfl hlt (by simp) hsort
              · rw [if_neg hstale]
                exact handleOption_outcome ih hb.handle rfl hlt (by simp) hsort
            | cons arg words =>
              have hlen := hb.length
              simp only [List.length_cons] at hlen hlt
              have hi := hb.index_eq
              rw [if_pos ⟨harg.1, harg.2, by omega⟩]
              have hb' := hb.handle.handle
              rw [List.append_assoc] at hb'
              refine handleOption_outcome ih hb' rfl (by omega) (by simp; omega) ?_
              rw [sortWords, hw]
              dsimp only
              rw [hresolve]
              dsimp only
              rw [if_pos harg]
              rfl
          · rw [if_neg fun h => harg ⟨h.1, h.2.1⟩]
            refine handleOption_outcome ih hb.handle rfl hlt (by simp) ?_
            rw [sortWords, hw]
            dsimp only
            rw [hresolve]
            dsimp only
            rw [if_neg harg]

end

/-- The arguments behind two dashes in the order in which they are taken out. -/
def takenOut : ℕ → List (List UInt8) → List (List UInt8)
  | 0, _ => []
  | n + 1, words => words.headD [] :: takenOut n (shiftDown words).tail

section

variable {st st' : Arguments σ} {words before : List (List UInt8)} {n j : ℕ}

theorem length_shiftDown (words : List (List UInt8)) : (shiftDown words).length = words.length := by
  cases words with
  | nil => rfl
  | cons a l => simp [shiftDown_cons]

theorem length_takenOut (n : ℕ) (words : List (List UInt8)) : (takenOut n words).length = n := by
  induction n generalizing words with
  | zero => rfl
  | succ n ih => rw [takenOut, List.length_cons, ih]

/-- Every other argument is taken out, and then the last one again and again. -/
theorem getElem?_takenOut (hn : words.length = n) (hj : j < n) :
    (takenOut n words)[j]? = words[min (2 * j) (n - 1)]? := by
  induction n generalizing words j with
  | zero => cases hj
  | succ n ih =>
    obtain ⟨a, l, rfl⟩ := List.exists_cons_of_length_eq_add_one hn
    rw [takenOut]
    cases j with
    | zero => simp
    | succ j =>
      rw [List.getElem?_cons_succ, ih (by rw [List.length_tail, length_shiftDown, hn]; rfl)
        (by omega), shiftDown_cons]
      rw [List.length_cons, Nat.add_right_cancel_iff] at hn
      obtain ⟨b, l, rfl⟩ := List.exists_cons_of_length_pos (by omega : 0 < l.length)
      rw [List.length_cons] at hn
      rw [List.cons_append, List.tail_cons]
      rcases Nat.lt_or_ge (2 * j) l.length with hlt | hge
      · rw [Nat.min_eq_left (by omega), List.getElem?_append_left hlt,
          show min (2 * (j + 1)) (n + 1 - 1) = 2 * j + 2 by omega]
        rfl
      · rw [Nat.min_eq_right (by omega), List.getElem?_append_right (by omega),
          show min (2 * (j + 1)) (n + 1 - 1) = (a :: b :: l).length - 1 by simp; omega,
          ← List.getLast?_eq_getElem?, List.getLast?_eq_some_getLast (List.cons_ne_nil _ _),
          show n - 1 - l.length = 0 by omega]
        rfl

/-- The arguments behind two dashes keep their order just if those after the first are the same. -/
theorem takenOut_eq_iff : takenOut words.length words = words ↔
    ∀ x ∈ words.tail, ∀ y ∈ words.tail, x = y := by
  have hget (h : takenOut words.length words = words) (j : ℕ) (hj : j < words.length) :
      words[j]? = words[min (2 * j) (words.length - 1)]? := by
    rw [← getElem?_takenOut rfl hj, h]
  constructor
  · intro h
    -- from each argument but the first the indices lead to the last one
    have hlast (k : ℕ) : ∀ j, 0 < j → j + k + 1 = words.length →
        words[j]? = words[words.length - 1]? := by
      induction k using Nat.strong_induction_on with
      | _ k ih =>
        intro j hj hk
        rcases Nat.eq_zero_or_pos k with rfl | hpos
        · rw [← hk]
          rfl
        · rw [hget h j (by omega)]
          exact ih (words.length - 1 - min (2 * j) (words.length - 1)) (by omega) _ (by omega)
            (by omega)
    have hall (x : List UInt8) (hx : x ∈ words.tail) : some x = words[words.length - 1]? := by
      obtain ⟨j, hj⟩ := List.mem_iff_getElem?.mp hx
      rw [List.getElem?_tail] at hj
      have hlt := (List.getElem?_eq_some_iff.mp hj).1
      rw [← hj]
      exact hlast (words.length - 1 - (j + 1)) (j + 1) (by omega) (by omega)
    intro x hx y hy
    exact Option.some.inj ((hall x hx).trans (hall y hy).symm)
  · intro h
    refine List.ext_getElem? fun j => ?_
    rcases Nat.lt_or_ge j words.length with hj | hj
    · rw [getElem?_takenOut rfl hj]
      rcases Nat.eq_zero_or_pos j with rfl | hpos
      · simp
      · have hmem (i : ℕ) (hi : 0 < i) (hlt : i < words.length) : words[i] ∈ words.tail := by
          obtain ⟨i, rfl⟩ := Nat.exists_eq_add_of_le' hi
          rw [← List.getElem_tail (by simp; omega)]
          exact List.getElem_mem _
        rw [List.getElem?_eq_getElem (by omega), List.getElem?_eq_getElem hj]
        exact congrArg some (h _ (hmem _ (by omega) _) _ (hmem _ hpos _))
    · rw [List.getElem?_eq_none (by rw [length_takenOut]; exact hj), List.getElem?_eq_none hj]

theorem removeFrom_takenOut (hn : words.length = n) (hargv : st.argv = before ++ words)
    (hroom : st.unhandled.length + n ≤ st.argv.length) :
    ∃ st', removeFrom n before.length st = .ok st' ∧
      st'.argv.take before.length = before ∧ st'.unhandled = st.unhandled ++ takenOut n words := by
  induction n generalizing st before words with
  | zero => exact ⟨st, rfl, by rw [hargv, List.take_left], by simp [takenOut]⟩
  | succ n ih =>
    obtain ⟨a, l, rfl⟩ := List.exists_cons_of_length_eq_add_one hn
    obtain ⟨b, t, hshift⟩ := List.exists_cons_of_length_eq_add_one
      ((length_shiftDown (a :: l)).trans hn)
    have ht : t.length = n := by
      have := length_shiftDown (a :: l)
      rw [hshift, hn] at this
      simpa using this
    have hlen : st.argv.length = before.length + (n + 1) := by rw [hargv, List.length_append, hn]
    have hremove : removeArgv st before.length = .ok { st with
        argv := (before ++ [b]) ++ t, unhandled := st.unhandled ++ [a] } := by
      rw [removeArgv, if_neg (by omega)]
      simp [hargv, hshift]
    rw [removeFrom, hremove]
    obtain ⟨st', hst', htake, hu⟩ := @ih
      { st with argv := (before ++ [b]) ++ t, unhandled := st.unhandled ++ [a] } t (before ++ [b])
      ht rfl (by simp [ht]; omega)
    rw [List.length_append, List.length_singleton] at hst' htake
    refine ⟨st', hst', ?_, ?_⟩
    · have := congrArg (List.take before.length) htake
      rwa [List.take_take, Nat.min_eq_left (by omega), List.take_left] at this
    · rw [hu, takenOut, hshift]
      simp

end

/-- The vector begins with the handled arguments, and the others follow in order. -/
def Permuted (prog : List UInt8) (s : Sorted)
    (r : Except OptionFailure (ℕ × List (List UInt8))) : Prop :=
  r = .ok ((prog :: s.handled).length, prog :: s.handled ++ (s.unhandled ++ s.rest.getD []))

/-- A vector that is permuted so has the arguments it had. -/
theorem Permuted.perm {ctx : OptionContext σ} {option : PreludeOption} {prog : List UInt8}
    {words argv : List (List UInt8)} {n : ℕ}
    (h : Permuted prog (sortWords ctx option [] words) (.ok (n, argv))) :
    argv.Perm (prog :: words) := by
  obtain ⟨-, rfl⟩ := Prod.mk.inj (Except.ok.inj h)
  exact (sortWords_perm ctx option [] words).cons prog

/-- There are no two dashes, or no argument before them is unhandled and those behind them are the
same from the second on. -/
def Orderly (s : Sorted) : Prop :=
  ∀ rest, s.rest = some rest → s.unhandled = [] ∧ ∀ x ∈ rest.tail, ∀ y ∈ rest.tail, x = y

/-- When no callback fails the vector is permuted as it should be just if the arguments behind two
dashes are not mixed up. -/
theorem option_read_permuted_iff (ctx : OptionContext σ) (option : PreludeOption)
    (prog : List UInt8) (words : List (List UInt8)) (context : σ)
    (h : preludeOptionRead ctx option (prog :: words) context ≠ .error .rejected) :
    Permuted prog (sortWords ctx option [] words)
      (preludeOptionRead ctx option (prog :: words) context) ↔
        Orderly (sortWords ctx option [] words) := by
  have hb : Between ((prog :: words).getLast (List.cons_ne_nil _ _))
      (⟨prog :: words, 1, [], context⟩ : Arguments σ) [prog] words :=
    ⟨by simp, List.getLast?_eq_some_getLast _, .inl rfl⟩
  have hout := @parseArgument_outcome σ ctx _ ((prog :: words).length + 1) option [] false
    _ _ _ hb (by rw [List.length_cons]; omega)
  rw [preludeOptionRead] at h ⊢
  generalize parseArgument ctx ((prog :: words).length + 1) option _ false _ = r at hout h ⊢
  cases hout with
  | rejected => exact absurd rfl h
  | @returned st' hs us ws hb' hu hlen hws hsort =>
    obtain rfl := hws rfl
    have hlen := hb'.length
    have htake : st'.argv.take ([prog] ++ hs).length = [prog] ++ hs := by
      rw [hb'.argv, List.append_nil, List.take_left]
    rw [List.nil_append] at hu
    rw [sortAfter_nil] at hsort
    rw [hsort]
    refine iff_of_true ?_ nofun
    dsimp only at h ⊢
    cases hfin : ctx.finish st'.context with
    | none => exact absurd (by rw [hfin]) h
    | some c =>
      have hfirst : st'.argv.length - st'.unhandled.length = ([prog] ++ hs).length := by
        rw [hlen, List.length_nil]
        omega
      dsimp only
      rw [hfirst, htake, hu]
      simp [Permuted, Sorted.after]
  | @dashes st' hs us ws hb' hi hu hsort =>
    rw [hsort]
    rw [List.nil_append] at hu
    have hlen := hb'.length
    rcases hr : removeFrom (st'.argv.length - st'.index) st'.index st' with e | st₁
    · rw [hr] at h
      have hroom : us ≠ [] := by
        rintro rfl
        obtain ⟨st₁, hst₁, -⟩ := @removeFrom_takenOut σ st' ws ([prog] ++ hs)
          (st'.argv.length - st'.index) (by rw [hlen, hi, hu]; simp)
          (by rw [hb'.argv, hu]; simp) (by rw [hu]; simp)
        rw [hi] at hr hst₁
        cases hr.symm.trans hst₁
      exact iff_of_false nofun fun ho => hroom (ho ws rfl).1
    · obtain ⟨hlen₁, -, hu₁⟩ := removeFrom_ok hr
      rw [hr] at h
      dsimp only at h ⊢
      cases hfin : ctx.finish st₁.context with
      | none => exact absurd (by rw [hfin]) h
      | some c =>
        dsimp only
        by_cases hus : us = []
        · subst hus
          obtain ⟨st₂, hst₂, htake, hu₂⟩ := @removeFrom_takenOut σ st' ws ([prog] ++ hs)
            (st'.argv.length - st'.index) (by rw [hlen, hi, hu]; simp)
            (by rw [hb'.argv, hu]; simp) (by rw [hu]; simp)
          rw [hi] at hr hst₂ hu₂
          cases hr.symm.trans hst₂
          have hfirst : st₁.argv.length - st₁.unhandled.length = ([prog] ++ hs).length := by
            rw [hlen₁, hu₁, hlen, hu, hi]
            simp
          have hn : st'.argv.length - ([prog] ++ hs).length = ws.length := by
            rw [hlen, hu]
            simp
          rw [hfirst, htake, hu₂, hu, hn]
          simp only [Permuted, Orderly, List.nil_append, Option.getD_some, Except.ok.injEq,
            Prod.mk.injEq, List.cons_append, List.length_cons, true_and, List.cons.injEq,
            List.append_cancel_left_eq, takenOut_eq_iff, Option.some.injEq, forall_eq']
        · refine iff_of_false ?_ fun ho => hus (ho ws rfl).1
          intro hp
          have hindex := congrArg (fun r => r.toOption.map Prod.fst) hp
          simp only [Except.toOption, Option.map_some, Option.some.injEq, List.length_cons]
            at hindex
          have hpos := List.length_pos_iff.mpr hus
          rw [hu] at hu₁ hlen
          rw [hlen₁, hu₁, hi, hlen] at hindex
          simp at hindex
          omega

def noOptions : OptionContext Unit where
  generic := none
  isGeneric := true
  roots := .mk ⟨none, 0, 0, 0, 0, none, none⟩ []
  call := fun c _ _ => some c
  finish := some

theorem option_read_permuted_two_words : Permuted [112]
    (sortWords noOptions noOptions.roots [] [[45, 45], [97], [98]])
    (preludeOptionRead noOptions noOptions.roots [[112], [45, 45], [97], [98]] ()) :=
  (option_read_permuted_iff noOptions noOptions.roots [112] [[45, 45], [97], [98]] ()
    (by
      rw [show preludeOptionRead noOptions noOptions.roots [[112], [45, 45], [97], [98]] () =
        .ok (2, [[112], [45, 45], [97], [98]]) from rfl]
      nofun)).mpr
    (by
      rintro rest ⟨⟩
      exact ⟨rfl, by decide⟩)

/-- Of the words `a`, `b` and `c` behind two dashes `b` is lost. -/
theorem option_read_three_words : ¬ Permuted [112]
    (sortWords noOptions noOptions.roots [] [[45, 45], [97], [98], [99]])
    (preludeOptionRead noOptions noOptions.roots [[112], [45, 45], [97], [98], [99]] ()) := by
  rw [show preludeOptionRead noOptions noOptions.roots [[112], [45, 45], [97], [98], [99]] () =
    .ok (2, [[112], [45, 45], [97], [99], [99]]) from rfl]
  intro h
  have hargv : ([[112], [45, 45], [97], [99], [99]] : List (List UInt8)) =
      [[112], [45, 45], [97], [98], [99]] := (Prod.mk.inj (Except.ok.inj h)).2
  revert hargv
  decide

end LibPrelude
