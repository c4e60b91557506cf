import LibPrelude.Common.Hash

/-! # Hash tables as finite maps

What a run leaves in a table is told by its operations alone: the value of a key is the
last one stored for it unless the element was destroyed since. A key and a value that are
handed to the table stay in an element until they are destroyed.
-/

namespace LibPrelude

variable {K V : Type*} {f : HashFuncs K} {h h' : PreludeHash K V}
  {chain : ℕ → List (ℕ × HashElem K V)} {l l₁ l₂ : List (ℕ × HashElem K V)} {elem : HashElem K V}
  {key k : K} {value : Option V} {b e n fuel : ℕ} {m : K → Option (Option V)}
  {handed : Multiset (HashElem K V)} {gone : List (HashElem K V)}

namespace HashFuncs

def put (f : HashFuncs K) (m : K → Option (Option V)) (key : K) (value : Option V) :
    K → Option (Option V) :=
  fun k => if f.test.same k key then some value else m k

def drop (f : HashFuncs K) (m : K → Option (Option V)) (key : K) : K → Option (Option V) :=
  fun k => if f.test.same k key then none else m k

end HashFuncs

/-- Memory for a new element may be refused. -/
inductive HashOp (K V : Type*) where
  | set (key : K) (value : Option V) (granted : Bool)
  | add (key : K) (value : Option V) (granted : Bool)
  | get (key : K)
  | elemDestroy (key : K)

namespace HashOp

/-- A set needs memory for a key that is absent, and an add needs it always. -/
def stores (m : K → Option (Option V)) : HashOp K V → Option (HashElem K V)
  | .set key value granted => if (m key).isSome || granted then some ⟨key, value⟩ else none
  | .add key value granted => if granted then some ⟨key, value⟩ else none
  | .get _ | .elemDestroy _ => none

def target : HashOp K V → K
  | .set key _ _ | .add key _ _ | .get key | .elemDestroy key => key

/-- What an operation makes of the values of all keys. -/
def onMap (f : HashFuncs K) (m : K → Option (Option V)) (op : HashOp K V) :
    K → Option (Option V) :=
  match op.stores m with
  | some elem => f.put m elem.key elem.value
  | none =>
    match op with
    | .elemDestroy key => f.drop m key
    | _ => m

/-- An add is for a key that is absent. -/
def Proper (m : K → Option (Option V)) : HashOp K V → Prop
  | .add key _ _ => m key = none
  | _ => True

end HashOp

/-- The values of all keys after some operations. -/
def valuesAfter (f : HashFuncs K) (ops : List (HashOp K V)) : K → Option (Option V) :=
  ops.foldl (HashOp.onMap f) fun _ => none

def AddsAbsent (f : HashFuncs K) (m : K → Option (Option V)) : List (HashOp K V) → Prop
  | [] => True
  | op :: ops => op.Proper m ∧ AddsAbsent f (op.onMap f m) ops

/-- The keys and values that the table takes over. -/
def handedOver (f : HashFuncs K) (m : K → Option (Option V)) :
    List (HashOp K V) → List (HashElem K V)
  | [] => []
  | op :: ops => (op.stores m).toList ++ handedOver f (op.onMap f m) ops

namespace PreludeHash

def step (f : HashFuncs K) (fuel : ℕ) (h : PreludeHash K V) : HashOp K V → Option (PreludeHash K V)
  | .set key value granted => (preludeHashSet f fuel h key value granted).map Prod.snd
  | .add key value granted => some (preludeHashAdd f h key value granted).2
  | .get key => (preludeHashGet f fuel h key).map fun _ => h
  | .elemDestroy key => (preludeHashElemDestroy f fuel h key).map Prod.snd

def run (f : HashFuncs K) (fuel : ℕ) (ops : List (HashOp K V)) (h : PreludeHash K V) :
    Option (PreludeHash K V) :=
  ops.foldlM (step f fuel) h

/-- A list in which another entry is found for one key only. -/
theorem contents_update {r : Option (ℕ × HashElem K V)}
    (hfind : ∀ k, f.test.find keyOf k l =
      if f.test.same k key then r else f.test.find keyOf k (chain (f.hashValueCalc key))) (k : K) :
    contents f (Function.update chain (f.hashValueCalc key) l) k =
      if f.test.same k key then r.map fun p => p.2.value else contents f chain k := by
  rw [contents, Function.update_apply]
  by_cases hk : f.test.same k key = true
  · rw [if_pos (hashValueCalc_eq hk), if_pos hk, hfind, if_pos hk]
  · rw [if_neg hk]
    split_ifs with hb
    · rw [hfind, if_neg hk, contents, hb]
    · rfl

theorem contents_add (key : K) (value : Option V) (e : ℕ) :
    contents f (Function.update chain (f.hashValueCalc key)
      ((e, ⟨key, value⟩) :: chain (f.hashValueCalc key))) = f.put (contents f chain) key value := by
  have hfind (k : K) : f.test.find keyOf k ((e, ⟨key, value⟩) :: chain (f.hashValueCalc key)) =
      if f.test.same k key then some (e, ⟨key, value⟩)
      else f.test.find keyOf k (chain (f.hashValueCalc key)) := KeyTest.find_cons ..
  exact funext fun k => contents_update hfind k

theorem contents_replace (hc : Chained f h chain)
    (hsplit : chain (f.hashValueCalc key) = l₁ ++ (e, elem) :: l₂)
    (hk : f.test.same key elem.key) :
    contents f (Function.update chain (f.hashValueCalc key) (l₁ ++ (e, ⟨key, value⟩) :: l₂)) =
      f.put (contents f chain) key value := by
  have hdistinct := (hc _ (hashValueCalc_lt f key)).distinct
  rw [hsplit] at hdistinct
  have hsame : f.test.same (keyOf (e, (⟨key, value⟩ : HashElem K V))) (keyOf (e, elem)) = true := hk
  have hfind (k : K) := KeyTest.find_replace hdistinct hsame k
  rw [← hsplit] at hfind
  exact funext fun k => contents_update hfind k

theorem contents_remove (hc : Chained f h chain)
    (hsplit : chain (f.hashValueCalc key) = l₁ ++ (e, elem) :: l₂)
    (hk : f.test.same key elem.key) :
    contents f (Function.update chain (f.hashValueCalc key) (l₁ ++ l₂)) =
      f.drop (contents f chain) key := by
  have hdistinct := (hc _ (hashValueCalc_lt f key)).distinct
  rw [hsplit] at hdistinct
  have hfind (k : K) : f.test.find keyOf k (l₁ ++ l₂) =
      if f.test.same k key then none else f.test.find keyOf k (chain (f.hashValueCalc key)) := by
    have hsame : f.test.same k key = f.test.same k elem.key := by
      rw [KeyTest.same_comm, KeyTest.same_congr hk, KeyTest.same_comm]
    rw [KeyTest.find_remove hdistinct, hsplit, hsame]
    rfl
  exact funext fun k => contents_update hfind k

def stored (f : HashFuncs K) (chain : ℕ → List (ℕ × HashElem K V)) : Multiset (HashElem K V) :=
  ∑ i ∈ Finset.range f.listsSize, ((chain i).map Prod.snd : Multiset (HashElem K V))

theorem stored_split (hb : b < f.listsSize) (hsplit : chain b = l₁ ++ (e, elem) :: l₂) :
    stored f chain = elem ::ₘ stored f (Function.update chain b (l₁ ++ l₂)) := by
  have hmem := Finset.mem_range.mpr hb
  have hpull (c : ℕ → List (ℕ × HashElem K V)) :
      stored f c = ((c b).map Prod.snd : Multiset (HashElem K V)) +
        ∑ i ∈ (Finset.range f.listsSize).erase b, ((c i).map Prod.snd : Multiset (HashElem K V)) :=
    (Finset.add_sum_erase _ _ hmem).symm
  rw [hpull chain, hpull (Function.update chain b (l₁ ++ l₂)), Function.update_self, hsplit]
  have hrest : ∀ i ∈ (Finset.range f.listsSize).erase b,
      ((Function.update chain b (l₁ ++ l₂) i).map Prod.snd : Multiset (HashElem K V)) =
        ((chain i).map Prod.snd : Multiset (HashElem K V)) := fun i hi => by
    rw [Function.update_of_ne (Finset.ne_of_mem_erase hi)]
  rw [Finset.sum_congr rfl hrest, ← Multiset.cons_add]
  congr 1
  simp

/-- The functions that destroy were called with the given keys and values. -/
structure Destroyed (f : HashFuncs K) (h : PreludeHash K V) (gone : List (HashElem K V)) :
    Prop where
  keys : h.keysDestroyed = if f.keyDestroyFunc then gone.map HashElem.key else []
  values : h.valuesDestroyed = if f.valueDestroyFunc then gone.map HashElem.value else []

theorem Destroyed.append (hd : Destroyed f h gone) (elem : HashElem K V) :
    Destroyed f (hashElemValueDestroy f (hashElemKeyDestroy f h elem) elem) (gone ++ [elem]) := by
  obtain ⟨hkeys, hvalues⟩ := hd
  constructor <;> rw [hashElemValueDestroy, hashElemKeyDestroy] <;> split_ifs <;> simp_all

/-- A table and what has happened to it: the values of all keys, what was handed over, and a bound
on the elements ever made. -/
structure Accounts (f : HashFuncs K) (h : PreludeHash K V) (m : K → Option (Option V))
    (handed : Multiset (HashElem K V)) (n : ℕ) (chain : ℕ → List (ℕ × HashElem K V))
    (gone : List (HashElem K V)) : Prop where
  chained : Chained f h chain
  contents : contents f chain = m
  destroyed : Destroyed f h gone
  balance : handed = (gone : Multiset (HashElem K V)) + stored f chain
  bound : h.nextElem ≤ n

def Sound (f : HashFuncs K) (h : PreludeHash K V) (m : K → Option (Option V))
    (handed : Multiset (HashElem K V)) (n : ℕ) : Prop :=
  ∃ chain gone, Accounts f h m handed n chain gone

theorem Sound.add (hs : Sound f h m handed n) (hkey : m key = none) (value : Option V) :
    Sound f (preludeHashAdd f h key value true).2 (f.put m key value)
      (⟨key, value⟩ ::ₘ handed) (n + 1) := by
  obtain ⟨chain, gone, hc, rfl, hd, rfl, hn⟩ := hs
  have hnone : f.test.find keyOf key (chain (f.hashValueCalc key)) = none :=
    Option.map_eq_none_iff.mp hkey
  have hadd := hc.add key value hnone
  have hsplit : Function.update chain (f.hashValueCalc key)
      ((h.nextElem, ⟨key, value⟩) :: chain (f.hashValueCalc key)) (f.hashValueCalc key) =
        [] ++ (h.nextElem, ⟨key, value⟩) :: chain (f.hashValueCalc key) := Function.update_self ..
  refine ⟨_, gone, hadd, contents_add key value _, ⟨hd.keys, hd.values⟩, ?_,
    Nat.succ_le_succ hn⟩
  rw [stored_split (hashValueCalc_lt f key) hsplit, List.nil_append, Function.update_idem,
    Function.update_eq_self, Multiset.add_cons]

theorem coe_append_add (gone : List (HashElem K V)) (elem : HashElem K V)
    (rest : Multiset (HashElem K V)) :
    ((gone ++ [elem] : List (HashElem K V)) : Multiset (HashElem K V)) + rest =
      gone + elem ::ₘ rest := by
  rw [← Multiset.coe_add, Multiset.coe_singleton, add_assoc, Multiset.singleton_add]

theorem exists_split (hkey : contents f chain key ≠ none) :
    ∃ e elem l₁ l₂, f.test.find keyOf key (chain (f.hashValueCalc key)) = some (e, elem) ∧
      f.test.same key elem.key ∧ chain (f.hashValueCalc key) = l₁ ++ (e, elem) :: l₂ := by
  rw [contents, Ne, Option.map_eq_none_iff] at hkey
  obtain ⟨⟨e, elem⟩, hfind⟩ := Option.ne_none_iff_exists'.mp hkey
  obtain ⟨hsame, l₁, l₂, hsplit⟩ := KeyTest.find_some hfind
  exact ⟨e, elem, l₁, l₂, hfind, hsame, hsplit⟩

theorem Sound.replace (hs : Sound f h m handed n) (hkey : m key ≠ none) (hfuel : n < fuel)
    (value : Option V) (granted : Bool) :
    ∃ h', preludeHashSet f fuel h key value granted = some (.ok 0, h') ∧
      Sound f h' (f.put m key value) (⟨key, value⟩ ::ₘ handed) n := by
  obtain ⟨chain, gone, hc, rfl, hd, rfl, hn⟩ := hs
  obtain ⟨e, elem, l₁, l₂, hfind, hsame, hsplit⟩ := exists_split hkey
  have hlt := hashValueCalc_lt f key
  have hreplace := (hc.destroyed elem).replace hsplit hsame value
  have hsplit' : Function.update chain (f.hashValueCalc key) (l₁ ++ (e, ⟨key, value⟩) :: l₂)
      (f.hashValueCalc key) = l₁ ++ (e, ⟨key, value⟩) :: l₂ := Function.update_self ..
  refine ⟨_, ?_, _, gone ++ [elem], hreplace, contents_replace hc hsplit hsame,
    ⟨(hd.append elem).keys, (hd.append elem).values⟩, ?_, by simpa using hn⟩
  · rw [preludeHashSet, hashElemGet_spec hc (hn.trans_lt hfuel), hfind]
  · rw [stored_split hlt hsplit, stored_split hlt hsplit', Function.update_idem,
      coe_append_add, Multiset.cons_swap, Multiset.add_cons, Multiset.add_cons, Multiset.add_cons]

theorem Sound.set_absent (hs : Sound f h m handed n) (hkey : m key = none) (hfuel : n < fuel)
    (value : Option V) (granted : Bool) :
    preludeHashSet f fuel h key value granted = some (preludeHashAdd f h key value granted) := by
  obtain ⟨chain, gone, hc, rfl, -, -, hn⟩ := hs
  rw [preludeHashSet, hashElemGet_spec hc (hn.trans_lt hfuel), Option.map_eq_none_iff.mp hkey]

theorem Sound.get (hs : Sound f h m handed n) (hfuel : n < fuel) (key : K) :
    preludeHashGet f fuel h key = some (m key).join := by
  obtain ⟨chain, gone, hc, rfl, -, -, hn⟩ := hs
  exact preludeHashGet_spec hc (hn.trans_lt hfuel) key

theorem Sound.drop (hs : Sound f h m handed n) (hkey : m key ≠ none) (hfuel : n < fuel) :
    ∃ h', preludeHashElemDestroy f fuel h key = some (0, h') ∧
      Sound f h' (f.drop m key) handed n := by
  obtain ⟨chain, gone, hc, rfl, hd, rfl, hn⟩ := hs
  obtain ⟨e, elem, l₁, l₂, hfind, hsame, hsplit⟩ := exists_split hkey
  have hlt := hashValueCalc_lt f key
  refine ⟨_, ?_, _, gone ++ [elem], hc.free hlt hsplit, contents_remove hc hsplit hsame,
    ⟨(hd.append elem).keys, (hd.append elem).values⟩, ?_, by simpa [hashElemFree] using hn⟩
  · rw [preludeHashElemDestroy, hashElemGet_spec hc (hn.trans_lt hfuel), hfind]
  · rw [stored_split hlt hsplit, coe_append_add]

theorem Sound.drop_absent (hs : Sound f h m handed n) (hkey : m key = none) (hfuel : n < fuel) :
    preludeHashElemDestroy f fuel h key = some (-1, h) := by
  obtain ⟨chain, gone, hc, rfl, -, -, hn⟩ := hs
  rw [preludeHashElemDestroy, hashElemGet_spec hc (hn.trans_lt hfuel),
    Option.map_eq_none_iff.mp hkey]

theorem Sound.mono (hs : Sound f h m handed n) : Sound f h m handed (n + 1) := by
  obtain ⟨chain, gone, ha⟩ := hs
  exact ⟨chain, gone, { ha with bound := Nat.le_succ_of_le ha.bound }⟩

theorem drop_absent (hs : Sound f h m handed n) (hkey : m key = none) : f.drop m key = m := by
  obtain ⟨chain, gone, hc, rfl, -, -, -⟩ := hs
  funext k
  unfold HashFuncs.drop
  split_ifs with hk
  · rw [← hkey, contents, contents, hashValueCalc_eq hk, KeyTest.find_congr hk]
  · rfl

/-- One operation does to the table what it does to the values of all keys. -/
theorem Sound.step (hs : Sound f h m handed n) (hfuel : n < fuel) {op : HashOp K V}
    (hop : op.Proper m) :
    ∃ h', PreludeHash.step f fuel h op = some h' ∧
      Sound f h' (op.onMap f m) ((op.stores m).toList + handed) (n + 1) := by
  cases op with
  | set key value granted =>
    by_cases hkey : m key = none
    · rw [PreludeHash.step, hs.set_absent hkey hfuel]
      cases granted with
      | true =>
        refine ⟨_, rfl, ?_⟩
        simpa [HashOp.onMap, HashOp.stores] using hs.add hkey value
      | false =>
        refine ⟨h, rfl, ?_⟩
        simpa [HashOp.onMap, HashOp.stores, hkey] using hs.mono
    · obtain ⟨h', hset, hs'⟩ := hs.replace hkey hfuel value granted
      refine ⟨h', by rw [PreludeHash.step, hset, Option.map_some], ?_⟩
      have hsome : (m key).isSome = true := Option.isSome_iff_ne_none.mpr hkey
      simpa [HashOp.onMap, HashOp.stores, hsome] using hs'.mono
  | add key value granted =>
    cases granted with
    | true =>
      refine ⟨_, rfl, ?_⟩
      simpa [HashOp.onMap, HashOp.stores] using hs.add hop value
    | false => exact ⟨h, rfl, by simpa [HashOp.onMap, HashOp.stores] using hs.mono⟩
  | get key =>
    refine ⟨h, by rw [PreludeHash.step, hs.get hfuel, Option.map_some], ?_⟩
    simpa [HashOp.onMap, HashOp.stores] using hs.mono
  | elemDestroy key =>
    by_cases hkey : m key = none
    · refine ⟨h, by rw [PreludeHash.step, hs.drop_absent hkey hfuel, Option.map_some], ?_⟩
      simpa [HashOp.onMap, HashOp.stores, PreludeHash.drop_absent hs hkey] using hs.mono
    · obtain ⟨h', hdrop, hs'⟩ := hs.drop hkey hfuel
      refine ⟨h', by rw [PreludeHash.step, hdrop, Option.map_some], ?_⟩
      simpa [HashOp.onMap, HashOp.stores] using hs'.mono

theorem Sound.run {ops : List (HashOp K V)} (hs : Sound f h m handed n)
    (hadds : AddsAbsent f m ops) (hfuel : n + ops.length < fuel) :
    ∃ h', PreludeHash.run f fuel ops h = some h' ∧
      Sound f h' (ops.foldl (HashOp.onMap f) m) (handedOver f m ops + handed) (n + ops.length) := by
  induction ops generalizing h m handed n with
  | nil => exact ⟨h, rfl, by simpa [handedOver] using hs⟩
  | cons op ops ih =>
    obtain ⟨hop, hadds⟩ := hadds
    rw [List.length_cons] at hfuel ⊢
    obtain ⟨h₁, hstep, hs₁⟩ := hs.step (by omega : n < fuel) hop
    obtain ⟨h', hrun, hs'⟩ := ih hs₁ hadds (by omega)
    refine ⟨h', ?_, ?_⟩
    · rw [PreludeHash.run, List.foldlM_cons, hstep]
      exact hrun
    · rw [handedOver, List.foldl_cons, ← Multiset.coe_add, add_assoc, add_left_comm,
        show n + (ops.length + 1) = n + 1 + ops.length by omega]
      exact hs'

theorem inits_ring (links : Links HashNode) (c : ℕ) :
    ∀ i < c, ((List.range c).foldl (fun s i => s.preludeListInit (.list i)) links).Ring
      (.list i) [] := by
  induction c with
  | zero => nofun
  | succ c ih =>
    intro i hi
    rw [List.range_succ, List.foldl_append, List.foldl_cons, List.foldl_nil]
    by_cases hic : i = c
    · subst hic
      exact Links.Ring.single ..
    · have hne : HashNode.list i ≠ .list c := fun h => hic (HashNode.list.inj h)
      refine (ih i (by omega)).congr (fun y hy => ?_) fun y hy => ?_
      · rw [List.mem_singleton.mp hy]
        exact Function.update_of_ne hne ..
      · rw [List.mem_singleton.mp hy]
        exact Function.update_of_ne hne ..

theorem sound_new (f : HashFuncs K) (links : Links HashNode) :
    Sound f (preludeHashNew2 (V := V) f links) (fun _ => none) 0 0 := by
  refine ⟨fun _ => [], [], fun i hi => ?_, ?_,
    ⟨by simp [preludeHashNew2], by simp [preludeHashNew2]⟩, ?_, le_rfl⟩
  · exact {
      ring := inits_ring links f.listsSize i hi
      live := nofun
      bucket := nofun
      fresh := nofun
      distinct := List.Pairwise.nil
      length := Nat.zero_le _ }
  · rfl
  · simp [stored]

theorem destroyList_spec (hc : Chained f h chain) (hb : b < f.listsSize) (hd : Destroyed f h gone)
    (hfuel : (chain b).length < fuel) :
    ∃ h', destroyList f (.list b) fuel h (h.links.next (.list b))
        (h.links.next (h.links.next (.list b))) = some h' ∧
      Chained f h' (Function.update chain b []) ∧
      Destroyed f h' (gone ++ (chain b).map Prod.snd) ∧ h'.nextElem = h.nextElem := by
  obtain ⟨l, hl⟩ : ∃ l, l = chain b := ⟨_, rfl⟩
  rw [← hl] at hfuel ⊢
  obtain ⟨fuel, rfl⟩ := Nat.exists_eq_succ_of_ne_zero (Nat.ne_of_gt (Nat.zero_lt_of_lt hfuel))
  induction l generalizing h chain gone fuel with
  | nil =>
    have hempty : h.links.next (.list b) = .list b := by
      rw [(hc b hb).ring.next.first, ← hl]
      rfl
    refine ⟨h, if_pos hempty, ?_, by simpa using hd, rfl⟩
    rwa [hl, Function.update_eq_self]
  | cons p l ih =>
    obtain ⟨e, elem⟩ := p
    have hring := (hc b hb).ring
    rw [← hl] at hring
    have hfirst : h.links.next (.list b) = .elem e := hring.next.first
    have hnext : h.links.next (.elem e) = (nodes l).headD (.list b) := hring.next.2.first
    have hentry : h.entry (.elem e) = some (e, elem) := by
      rw [entry, (hc b hb).live (e, elem) (hl ▸ List.mem_cons_self)]
      rfl
    have hsplit : chain b = [] ++ (e, elem) :: l := hl.symm
    have hfree := hc.free hb hsplit
    rw [List.nil_append] at hfree
    have hfirst' : (hashElemFree f h e elem).links.next (.list b) = h.links.next (.elem e) := by
      have hring' := (hfree b hb).ring
      rw [Function.update_self] at hring'
      rw [hring'.next.first, hnext]
    have hlt : l.length < fuel := Nat.lt_of_succ_lt_succ hfuel
    obtain ⟨fuel, rfl⟩ := Nat.exists_eq_succ_of_ne_zero (Nat.ne_of_gt (Nat.zero_lt_of_lt hlt))
    obtain ⟨h', hdestroy, hc', hd', hnext'⟩ := ih hfree
      ⟨(hd.append elem).keys, (hd.append elem).values⟩ (by rw [Function.update_self]) fuel hlt
    refine ⟨h', ?_, ?_, ?_, hnext'.trans (by simp [hashElemFree])⟩
    · rw [destroyList, hfirst, if_neg (by rintro ⟨⟩), hentry]
      rwa [hfirst'] at hdestroy
    · rwa [Function.update_idem] at hc'
    · simpa using hd'

theorem destroyLists_spec {cnts : List ℕ} (hc : Chained f h chain)
    (hcnts : ∀ i ∈ cnts, i < f.listsSize) (hnodup : cnts.Nodup) (hd : Destroyed f h gone)
    (hfuel : h.nextElem < fuel) :
    ∃ h', destroyLists f fuel cnts h = some h' ∧
      Destroyed f h' (gone ++ cnts.flatMap fun i => (chain i).map Prod.snd) := by
  induction cnts generalizing h chain gone with
  | nil => exact ⟨h, rfl, by simpa using hd⟩
  | cons c cnts ih =>
    obtain ⟨hnot, hnodup⟩ := List.nodup_cons.mp hnodup
    have hlt := hcnts c List.mem_cons_self
    obtain ⟨h₁, hlist, hc₁, hd₁, hnext⟩ :=
      destroyList_spec hc hlt hd ((hc c hlt).length.trans_lt hfuel)
    obtain ⟨h', hlists, hd'⟩ := ih hc₁ (fun i hi => hcnts i (List.mem_cons_of_mem _ hi)) hnodup hd₁
      (hnext ▸ hfuel)
    refine ⟨h', by rw [destroyLists, hlist, Option.bind_some, hlists], ?_⟩
    have hother : cnts.flatMap (fun i => (Function.update chain c [] i).map Prod.snd) =
        cnts.flatMap fun i => (chain i).map Prod.snd :=
      List.flatMap_congr fun i hi => by rw [Function.update_of_ne (ne_of_mem_of_not_mem hi hnot)]
    rwa [hother, List.append_assoc] at hd'

theorem coe_flatMap (chain : ℕ → List (ℕ × HashElem K V)) (c : ℕ) :
    ((List.range c).flatMap fun i => (chain i).map Prod.snd : Multiset (HashElem K V)) =
      ∑ i ∈ Finset.range c, ((chain i).map Prod.snd : Multiset (HashElem K V)) := by
  induction c with
  | zero => rfl
  | succ c ih =>
    rw [List.range_succ, List.flatMap_append, List.flatMap_singleton, ← Multiset.coe_add, ih,
      Finset.sum_range_succ]

/-- What was handed over is destroyed by the end. -/
theorem Sound.destroy (hs : Sound f h m handed n) (hfuel : n < fuel) :
    ∃ h' gone, preludeHashDestroy f fuel h = some h' ∧ Destroyed f h' gone ∧
      (gone : Multiset (HashElem K V)) = handed := by
  obtain ⟨chain, gone, hc, -, hd, rfl, hn⟩ := hs
  obtain ⟨h', hdestroy, hd'⟩ := destroyLists_spec hc
    (fun i hi => List.mem_range.mp hi) (List.nodup_range (n := f.listsSize)) hd (hn.trans_lt hfuel)
  exact ⟨h', _, hdestroy, hd', by rw [← Multiset.coe_add, coe_flatMap, stored]⟩

theorem target_of_stores {op : HashOp K V} (h : op.stores m = some elem) :
    elem.key = op.target := by
  cases op <;> simp only [HashOp.stores, Option.ite_none_right_eq_some, reduceCtorEq,
    Option.some.injEq] at h
  · exact h.2 ▸ rfl
  · exact h.2 ▸ rfl

theorem onMap_other {op : HashOp K V} (hk : f.keyCmpFunc k op.target ≠ 0) :
    op.onMap f m k = m k := by
  have hsame : ¬ f.test.same k op.target = true := fun h => hk (of_decide_eq_true h)
  cases hstores : op.stores m with
  | some elem =>
    unfold HashOp.onMap
    rw [hstores]
    exact if_neg (target_of_stores hstores ▸ hsame)
  | none =>
    cases op with
    | elemDestroy key => exact if_neg hsame
    | set key value granted | add key value granted =>
      unfold HashOp.onMap
      rw [hstores]
    | get key => rfl

/-- A table is a finite map. The keys and values it was handed are destroyed once each, as often as
they were handed over, when the table is. -/
structure ActsAsMap (f : HashFuncs K) (fuel : ℕ) (h : PreludeHash K V) (m : K → Option (Option V))
    (handed : List (HashElem K V)) : Prop where
  get : ∀ k, preludeHashGet f fuel h k = some (m k).join
  elemDestroy : ∀ k, ∃ ret h', preludeHashElemDestroy f fuel h k = some (ret, h') ∧
    (ret ≠ 0 ↔ m k = none) ∧ preludeHashGet f fuel h' k = some none
  other : ∀ op, op.Proper m → ∃ h', PreludeHash.step f fuel h op = some h' ∧
    ∀ k, f.keyCmpFunc k op.target ≠ 0 → preludeHashGet f fuel h' k = preludeHashGet f fuel h k
  destroy : ∃ h', preludeHashDestroy f fuel h = some h' ∧
    (f.keyDestroyFunc → h'.keysDestroyed.Perm (handed.map HashElem.key)) ∧
    (f.valueDestroyFunc → h'.valuesDestroyed.Perm (handed.map HashElem.value))

theorem Sound.actsAsMap {given : List (HashElem K V)} (hs : Sound f h m given n)
    (hfuel : n + 1 < fuel) : ActsAsMap f fuel h m given := by
  have hlt : n < fuel := Nat.lt_of_succ_lt hfuel
  constructor
  case get => exact hs.get hlt
  case elemDestroy =>
    intro k
    by_cases hk : m k = none
    · refine ⟨-1, h, hs.drop_absent hk hlt, by simp [hk], ?_⟩
      rw [hs.get hlt, hk]
      rfl
    · obtain ⟨h', hdrop, hs'⟩ := hs.drop hk hlt
      refine ⟨0, h', hdrop, by simp [hk], ?_⟩
      rw [hs'.get hlt, HashFuncs.drop, if_pos (f.test.refl k)]
      rfl
  case other =>
    intro op hop
    obtain ⟨h', hstep, hs'⟩ := hs.step hlt hop
    refine ⟨h', hstep, fun k hk => ?_⟩
    rw [hs'.get hfuel, hs.get hlt, onMap_other hk]
  case destroy =>
    obtain ⟨h', gone, hdestroy, hd, hgone⟩ := hs.destroy hlt
    have hperm : gone.Perm given := Multiset.coe_eq_coe.mp hgone
    refine ⟨h', hdestroy, fun hf => ?_, fun hf => ?_⟩
    · rw [hd.keys, if_pos hf]
      exact hperm.map _
    · rw [hd.values, if_pos hf]
      exact hperm.map _

/-- Every run leaves a finite map of the values stored last. -/
theorem run_actsAsMap (f : HashFuncs K) (links : Links HashNode) (ops : List (HashOp K V))
    (hadds : AddsAbsent f (fun _ => none) ops) (fuel : ℕ) (hfuel : ops.length + 1 < fuel) :
    ∃ h, PreludeHash.run f fuel ops (preludeHashNew2 f links) = some h ∧
      ActsAsMap f fuel h (valuesAfter f ops) (handedOver f (fun _ => none) ops) := by
  obtain ⟨h, hrun, hs⟩ := (sound_new f links).run hadds (by omega : 0 + ops.length < fuel)
  rw [add_zero] at hs
  exact ⟨h, hrun, hs.actsAsMap (by omega)⟩

def oneList : HashFuncs ℕ where
  listsSize := 1
  hashFunc _ := 5
  keyCmpFunc k k' := k - k'
  keyDestroyFunc := true
  valueDestroyFunc := true
  listsSize_pos := Nat.one_pos
  cmp_refl k := sub_self _
  cmp_symm h := by omega
  cmp_trans h h' := by omega
  hash_eq _ := rfl

theorem oneList_acts :
    let ops : List (HashOp ℕ ℕ) :=
      [.set 1 (some 10) true, .add 2 (some 20) true, .set 1 (some 11) true, .elemDestroy 2]
    ∃ h, PreludeHash.run oneList 6 ops (preludeHashNew2 oneList ⟨id, id⟩) = some h ∧
      preludeHashGet oneList 6 h 1 = some (some 11) ∧ preludeHashGet oneList 6 h 2 = some none ∧
      ∃ h', preludeHashDestroy oneList 6 h = some h' ∧ h'.keysDestroyed.Perm [1, 2, 1] := by
  obtain ⟨h, hrun, hmap⟩ := run_actsAsMap oneList ⟨id, id⟩
    [.set 1 (some 10) true, .add 2 (some 20) true, .set 1 (some 11) true, .elemDestroy 2]
    ⟨trivial, rfl, trivial, trivial, trivial⟩ 6 (by decide)
  obtain ⟨h', hdestroy, hkeys, -⟩ := hmap.destroy
  exact ⟨h, hrun, hmap.get 1, hmap.get 2, h', hdestroy, hkeys rfl⟩

end PreludeHash

end LibPrelude
