import LibPrelude.General.Ranked
import LibPrelude.Message.Basic

/-! # The queue of options

Options that are not run at once wait in a queue, first those of the command line and
then those of the configuration file, which go in front of those of the command line.
An option with the last priority is put at the end, wherever it was found.
-/

namespace LibPrelude

inductive OptionPriority where
  | immediate
  | first
  | none
  | last
  deriving DecidableEq, Repr

def OptionPriority.value : OptionPriority → ℤ
  | immediate => -2
  | first => -1
  | none => 0
  | last => 2

inductive SetFrom where
  | cli
  | cfg
  deriving DecidableEq, Repr

/-- An option that waits to be set; the options behind it wait in a queue of their own. -/
structure CbList (ω : Type*) where
  option : ω
  arg : Option (List UInt8)
  setFrom : SetFrom

section Queue

variable {ω σ : Type*} (priority : ω → OptionPriority)
  (doSet : ω → Option (List UInt8) → σ → Ret × σ)

/-- The items that the new one is to stand in front of. -/
def stopsAt (new cb : CbList ω) : Bool :=
  (new.setFrom = .cfg ∧ priority new.option = priority cb.option ∧ cb.setFrom = .cli) ∨
    (priority new.option).value < (priority cb.option).value

/-- Run an immediate option, and queue any other. -/
def callOptionCb (new : CbList ω) (cblist : List (CbList ω)) (s : σ) :
    Ret × List (CbList ω) × σ :=
  if priority new.option = .immediate then
    let (ret, s) := doSet new.option new.arg s
    (ret, cblist, s)
  else if priority new.option = .last then (.ok (), cblist ++ [new], s)
  else
    (.ok (), cblist.takeWhile (¬ stopsAt priority new ·) ++
      new :: cblist.dropWhile (¬ stopsAt priority new ·), s)

/-- Options met one after the other, up to an error. -/
def callOptionCbs : List (CbList ω) → List (CbList ω) → σ → Ret × List (CbList ω) × σ
  | [], cblist, s => (.ok (), cblist, s)
  | new :: met, cblist, s =>
    match callOptionCb priority doSet new cblist s with
    | (.ok (), cblist, s) => callOptionCbs met cblist s
    | (.error e, cblist, s) => (.error e, cblist, s)

/-- Options of the command line and then those of the configuration file. -/
def metOptions (cli cfg : List (ω × Option (List UInt8))) : List (CbList ω) :=
  cli.map (fun (o, arg) => ⟨o, arg, .cli⟩) ++ cfg.map (fun (o, arg) => ⟨o, arg, .cfg⟩)

/-- The queue that the options met are to be in. -/
structure InOrder (met queue : List (CbList ω)) : Prop where
  sorted : queue.Pairwise fun a b => (priority a.option).value ≤ (priority b.option).value
  stable : ∀ pri, pri ≠ .immediate → ∀ setFrom,
    (queue.filter fun a => priority a.option = pri ∧ a.setFrom = setFrom) =
      met.filter fun a => priority a.option = pri ∧ a.setFrom = setFrom
  queued : ∀ a ∈ queue, priority a.option ≠ .immediate
  cfgFirst : queue.Pairwise fun a b => priority a.option = priority b.option →
    b.setFrom = .cfg → a.setFrom = .cfg

/-- The order of the queue as a number. -/
def CbList.rank (a : CbList ω) : ℤ :=
  2 * (priority a.option).value + (if a.setFrom = .cli then 1 else 0)

variable {priority}

theorem OptionPriority.value_injective {p q : OptionPriority} (h : p.value = q.value) : p = q := by
  cases p <;> cases q <;> first | rfl | cases h

theorem stopsAt_iff {new cb : CbList ω} :
    stopsAt priority new cb = true ↔ new.rank priority < cb.rank priority := by
  have hcast : priority new.option = priority cb.option ↔
      (priority new.option).value = (priority cb.option).value :=
    ⟨congrArg _, OptionPriority.value_injective⟩
  rw [stopsAt, decide_eq_true_eq, hcast, CbList.rank, CbList.rank]
  rcases hn : new.setFrom with _ | _ <;> rcases hc : cb.setFrom with _ | _ <;>
    simp only [reduceCtorEq, false_and, and_false, false_or, true_and, and_true, if_true,
      if_false] <;> omega

theorem rank_eq_iff {a b : CbList ω} : a.rank priority = b.rank priority ↔
    priority a.option = priority b.option ∧ a.setFrom = b.setFrom := by
  have hcast : priority a.option = priority b.option ↔
      (priority a.option).value = (priority b.option).value :=
    ⟨congrArg _, OptionPriority.value_injective⟩
  rw [hcast, CbList.rank, CbList.rank]
  rcases a.setFrom with _ | _ <;> rcases b.setFrom with _ | _ <;>
    simp only [reduceCtorEq, and_false, and_true, if_true, if_false, iff_false] <;> omega

theorem callOptionCb_eq {new : CbList ω} {cblist : List (CbList ω)} {s : σ}
    (hi : priority new.option ≠ .immediate) :
    callOptionCb priority doSet new cblist s = (.ok (), if priority new.option = .last then
      cblist ++ [new] else Ranked.insert (CbList.rank priority) new cblist, s) := by
  rw [callOptionCb, if_neg hi]
  split_ifs with hl
  · rfl
  · rw [Ranked.insert, List.orderedInsert_eq_take_drop]
    simp only [stopsAt_iff]

theorem callOptionCbs_append (met met' : List (CbList ω)) (cblist : List (CbList ω)) (s : σ) :
    callOptionCbs priority doSet (met ++ met') cblist s =
      match callOptionCbs priority doSet met cblist s with
      | (.ok (), cblist, s) => callOptionCbs priority doSet met' cblist s
      | (.error e, cblist, s) => (.error e, cblist, s) := by
  induction met generalizing cblist s with
  | nil => rfl
  | cons new met ih =>
    rw [List.cons_append, callOptionCbs, callOptionCbs]
    rcases callOptionCb priority doSet new cblist s with ⟨_ | _, cblist, s⟩
    · rfl
    · exact ih cblist s

theorem sublist_callOptionCb {new : CbList ω} {cblist cblist' : List (CbList ω)} {s s' : σ}
    {ret : Ret} (h : callOptionCb priority doSet new cblist s = (ret, cblist', s')) :
    List.Sublist cblist cblist' := by
  by_cases hi : priority new.option = .immediate
  · rw [callOptionCb, if_pos hi] at h
    cases h
    exact List.Sublist.refl _
  · rw [callOptionCb_eq doSet hi] at h
    cases h
    split_ifs
    · exact List.sublist_append_left _ _
    · exact Ranked.sublist_insert

theorem sublist_callOptionCbs {met cblist cblist' : List (CbList ω)} {s s' : σ} {ret : Ret}
    (h : callOptionCbs priority doSet met cblist s = (ret, cblist', s')) :
    List.Sublist cblist cblist' := by
  induction met generalizing cblist s with
  | nil =>
    cases h
    exact List.Sublist.refl _
  | cons new met ih =>
    rw [callOptionCbs] at h
    rcases hc : callOptionCb priority doSet new cblist s with ⟨_ | _, mid, s₁⟩
    · rw [hc] at h
      cases h
      exact sublist_callOptionCb doSet hc
    · rw [hc] at h
      exact (sublist_callOptionCb doSet hc).trans (ih h)

variable (priority) in
/-- The options met, in the queue by their rank. -/
structure Ranks (met queue : List (CbList ω)) : Prop where
  sorted : Ranked.Sorted (CbList.rank priority) queue
  stable : ∀ pri, pri ≠ .immediate → ∀ setFrom,
    (queue.filter fun a => priority a.option = pri ∧ a.setFrom = setFrom) =
      met.filter fun a => priority a.option = pri ∧ a.setFrom = setFrom
  queued : ∀ a ∈ queue, priority a.option ≠ .immediate

theorem Ranks.mem_iff {met queue : List (CbList ω)} (h : Ranks priority met queue)
    {a : CbList ω} (ha : priority a.option ≠ .immediate) : a ∈ queue ↔ a ∈ met := by
  have hs := h.stable (priority a.option) ha a.setFrom
  have hmem (l : List (CbList ω)) : a ∈ l ↔
      a ∈ l.filter fun b => priority b.option = priority a.option ∧ b.setFrom = a.setFrom := by
    rw [List.mem_filter]
    exact ⟨fun h => ⟨h, by simp⟩, fun h => h.1⟩
  rw [hmem queue, hs, ← hmem met]

theorem inOrder_iff {met queue : List (CbList ω)} :
    InOrder priority met queue ↔ Ranks priority met queue := by
  have hrank (a b : CbList ω) : a.rank priority ≤ b.rank priority ↔
      (priority a.option).value ≤ (priority b.option).value ∧
        (priority a.option = priority b.option → b.setFrom = .cfg → a.setFrom = .cfg) := by
    have hcast : priority a.option = priority b.option ↔
        (priority a.option).value = (priority b.option).value :=
      ⟨congrArg _, OptionPriority.value_injective⟩
    rw [hcast, CbList.rank, CbList.rank]
    rcases a.setFrom with _ | _ <;> rcases b.setFrom with _ | _ <;>
      simp only [reduceCtorEq, if_true, if_false, forall_const, imp_false, implies_true,
        not_false_eq_true, and_true] <;> omega
  constructor
  · intro h
    refine ⟨?_, h.stable, h.queued⟩
    exact (h.sorted.and h.cfgFirst).imp fun hab => (hrank _ _).mpr hab
  · intro h
    exact ⟨h.sorted.imp fun hab => ((hrank _ _).mp hab).1, h.stable, h.queued,
      h.sorted.imp fun hab => ((hrank _ _).mp hab).2⟩

/-- Both the command line and the configuration file set an option with the last priority. -/
def LastTwice (priority : ω → OptionPriority) (met : List (CbList ω)) : Prop :=
  (∃ a ∈ met, priority a.option = .last ∧ a.setFrom = .cli) ∧
    ∃ a ∈ met, priority a.option = .last ∧ a.setFrom = .cfg

/-- An option keeps the order unless it is a last one behind one of the command line. -/
theorem Ranks.call {met queue queue' : List (CbList ω)} {new : CbList ω} {s s' : σ}
    (h : Ranks priority met queue) (hlast : ¬ LastTwice priority (met ++ [new]))
    (hc : callOptionCb priority doSet new queue s = (.ok (), queue', s')) :
    Ranks priority (met ++ [new]) queue' := by
  by_cases hi : priority new.option = .immediate
  · simp only [callOptionCb, if_pos hi, Prod.mk.injEq] at hc
    obtain ⟨-, rfl, -⟩ := hc
    refine ⟨h.sorted, fun pri hpri setFrom => ?_, h.queued⟩
    have hnew : ¬ (priority new.option = pri ∧ new.setFrom = setFrom) := by
      rw [hi]
      exact fun hn => hpri hn.1.symm
    rw [List.filter_append, List.filter_cons_of_neg (by simpa using hnew), List.filter_nil,
      List.append_nil]
    exact h.stable pri hpri setFrom
  · have hq : queue' = Ranked.insert (CbList.rank priority) new queue := by
      rw [callOptionCb_eq doSet hi] at hc
      cases hc
      split_ifs with hl
      · refine (Ranked.insert_of_le fun b hb => ?_).symm
        by_contra hgt
        have hvalue : (priority b.option).value ≤ 2 := by
          cases priority b.option <;> decide
        have hnew : (priority new.option).value = 2 := by rw [hl]; rfl
        unfold CbList.rank at hgt
        rcases hnf : new.setFrom with _ | _ <;> rcases hbf : b.setFrom with _ | _ <;>
          simp only [hnf, hbf, reduceCtorEq, if_true, if_false] at hgt <;> try omega
        have hbl : priority b.option = .last := by
          refine OptionPriority.value_injective ?_
          change _ = 2
          omega
        have hbm : b ∈ met := (h.mem_iff (by rw [hbl]; nofun)).mp hb
        exact hlast ⟨⟨b, List.mem_append_left _ hbm, hbl, hbf⟩,
          ⟨new, List.mem_append_right _ (List.mem_singleton_self _), hl, hnf⟩⟩
      · rfl
    subst hq
    refine ⟨Ranked.sorted_insert h.sorted, fun pri hpri setFrom => ?_, fun b hb => ?_⟩
    · rw [Ranked.filter_insert h.sorted, List.filter_append, List.filter_append,
        h.stable pri hpri setFrom]
      intro b hb hnew
      rw [decide_eq_true_eq] at hb hnew
      exact rank_eq_iff.mpr ⟨hb.1.trans hnew.1.symm, hb.2.trans hnew.2.symm⟩
    · rcases Ranked.mem_insert.mp hb with rfl | hb
      · exact hi
      · exact h.queued b hb

theorem LastTwice.mono {met met' : List (CbList ω)} (h : LastTwice priority met)
    (hsub : ∀ a ∈ met, a ∈ met') : LastTwice priority met' := by
  obtain ⟨⟨a, ha, hla⟩, b, hb, hlb⟩ := h
  exact ⟨⟨a, hsub a ha, hla⟩, b, hsub b hb, hlb⟩

theorem Ranks.run {met new queue queue' : List (CbList ω)} {s s' : σ}
    (h : Ranks priority met queue) (hlast : ¬ LastTwice priority (met ++ new))
    (hc : callOptionCbs priority doSet new queue s = (.ok (), queue', s')) :
    Ranks priority (met ++ new) queue' := by
  induction new generalizing met queue s with
  | nil =>
    cases hc
    rw [List.append_nil]
    exact h
  | cons a new ih =>
    rw [callOptionCbs] at hc
    rw [List.append_cons] at hlast ⊢
    rcases hcall : callOptionCb priority doSet a queue s with ⟨_ | _, mid, s₁⟩
    · rw [hcall] at hc
      cases hc
    · rw [hcall] at hc
      exact ih (h.call doSet (fun ht => hlast (ht.mono fun b hb => List.mem_append_left _ hb))
        hcall) hlast hc

theorem behind_of_last {met queue queue' : List (CbList ω)} {a b : CbList ω} {s s' : σ}
    (ha : a ∈ queue) (hb : b ∈ met) (hl : priority b.option = .last)
    (hc : callOptionCbs priority doSet met queue s = (.ok (), queue', s')) :
    List.Sublist [a, b] queue' := by
  induction met generalizing queue s with
  | nil => cases hb
  | cons new met ih =>
    rw [callOptionCbs] at hc
    rcases hcall : callOptionCb priority doSet new queue s with ⟨_ | _, mid, s₁⟩
    · rw [hcall] at hc
      cases hc
    · rw [hcall] at hc
      rcases List.mem_cons.mp hb with rfl | hb
      · rw [callOptionCb_eq doSet (by rw [hl]; nofun), if_pos hl] at hcall
        cases hcall
        have hsub : List.Sublist ([a] ++ [b]) (queue ++ [b]) :=
          List.Sublist.append (List.singleton_sublist.mpr ha) (List.Sublist.refl _)
        exact hsub.trans (sublist_callOptionCbs doSet hc)
      · exact ih ((sublist_callOptionCb doSet hcall).subset ha) hb hc

variable (priority) in
theorem ranks_nil : Ranks priority [] [] := ⟨.nil, fun _ _ _ => rfl, nofun⟩

theorem lastTwice_iff {cli cfg : List (ω × Option (List UInt8))} :
    LastTwice priority (metOptions cli cfg) ↔
      (∃ o ∈ cli, priority o.1 = .last) ∧ ∃ o ∈ cfg, priority o.1 = .last := by
  constructor
  · rintro ⟨⟨a, ha, hal, haf⟩, b, hb, hbl, hbf⟩
    rcases List.mem_append.mp ha with ha | ha
    · rcases List.mem_append.mp hb with hb | hb
      · obtain ⟨o, -, rfl⟩ := List.mem_map.mp hb
        cases hbf
      · obtain ⟨o, ho, rfl⟩ := List.mem_map.mp ha
        obtain ⟨o', ho', rfl⟩ := List.mem_map.mp hb
        exact ⟨⟨o, ho, hal⟩, o', ho', hbl⟩
    · obtain ⟨o, -, rfl⟩ := List.mem_map.mp ha
      cases haf
  · rintro ⟨⟨o, ho, hol⟩, o', ho', hol'⟩
    exact ⟨⟨_, List.mem_append_left _ (List.mem_map_of_mem ho), hol, rfl⟩,
      _, List.mem_append_right _ (List.mem_map_of_mem ho'), hol', rfl⟩

/-- At all times in a run the queue is in order, exactly when not both the command line and the
configuration file set an option with the last priority. -/
theorem option_queue_iff (doSet : ω → Option (List UInt8) → σ → Ret × σ)
    (cli cfg : List (ω × Option (List UInt8))) (s s' : σ) (queue : List (CbList ω))
    (hrun : callOptionCbs priority doSet (metOptions cli cfg) [] s = (.ok (), queue, s')) :
    (∀ k queue' s'', callOptionCbs priority doSet ((metOptions cli cfg).take k) [] s =
        (.ok (), queue', s'') → InOrder priority ((metOptions cli cfg).take k) queue') ↔
      ¬ ((∃ o ∈ cli, priority o.1 = .last) ∧ ∃ o ∈ cfg, priority o.1 = .last) := by
  constructor
  · rintro hall ⟨⟨o, ho, hol⟩, o', ho', hol'⟩
    have hin := hall (metOptions cli cfg).length queue s' (by rw [List.take_length]; exact hrun)
    obtain ⟨queue₁, s₁, hcli, hcfg⟩ : ∃ queue₁ s₁,
        callOptionCbs priority doSet (metOptions cli []) [] s = (.ok (), queue₁, s₁) ∧
        callOptionCbs priority doSet (metOptions [] cfg) queue₁ s₁ = (.ok (), queue, s') := by
      have happend : metOptions cli cfg = metOptions cli [] ++ metOptions [] cfg := by
        simp [metOptions]
      rw [happend, callOptionCbs_append] at hrun
      rcases hfirst : callOptionCbs priority doSet (metOptions cli []) [] s with ⟨_ | _, queue₁, s₁⟩
      · rw [hfirst] at hrun
        cases hrun
      · rw [hfirst] at hrun
        exact ⟨queue₁, s₁, rfl, hrun⟩
    have hranks := (ranks_nil priority).run doSet (fun ht => by
      have := (lastTwice_iff.mp ht).2
      simp at this) hcli
    have hmem : (⟨o.1, o.2, .cli⟩ : CbList ω) ∈ queue₁ := by
      refine (hranks.mem_iff (by rw [hol]; nofun)).mpr ?_
      simpa [metOptions] using ho
    have hmem' : (⟨o'.1, o'.2, .cfg⟩ : CbList ω) ∈ metOptions [] cfg := by
      simpa [metOptions] using ho'
    have hsub := behind_of_last doSet hmem hmem' hol' hcfg
    have hpair := (hin.cfgFirst.sublist hsub)
    rw [List.pairwise_pair] at hpair
    cases hpair (hol.trans hol'.symm) rfl
  · intro hlast k queue' s'' hk
    refine inOrder_iff.mpr
      ((ranks_nil priority).run doSet (fun ht => hlast (lastTwice_iff.mp ?_)) hk)
    exact ht.mono fun a ha => List.mem_of_mem_take ha

def firstOption : OptionPriority × Option (List UInt8) := (.first, none)

def lastOption : OptionPriority × Option (List UInt8) := (.last, none)

theorem option_queue_first : (∀ k queue' s'', callOptionCbs id (fun _ _ s => (.ok (), s))
      ((metOptions [firstOption] [lastOption]).take k) [] () = (.ok (), queue', s'') →
      InOrder id ((metOptions [firstOption] [lastOption]).take k) queue') ↔
    ¬ ((∃ o ∈ [firstOption], id o.1 = .last) ∧ ∃ o ∈ [lastOption], id o.1 = .last) :=
  option_queue_iff (fun _ _ s => (.ok (), s)) [firstOption] [lastOption] () () _ rfl

/-- A last option of the configuration file has the last word. -/
theorem option_queue_last : ¬ ∀ queue s'', callOptionCbs id (fun _ _ s => (.ok (), s))
      (metOptions [lastOption] [lastOption]) [] () = (.ok (), queue, s'') →
      InOrder id (metOptions [lastOption] [lastOption]) queue := by
  intro hall
  have hin := hall [⟨.last, none, .cli⟩, ⟨.last, none, .cfg⟩] () rfl
  have hpair := List.pairwise_pair.mp hin.cfgFirst
  cases hpair rfl rfl

end Queue

end LibPrelude
