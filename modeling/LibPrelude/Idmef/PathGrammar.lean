import LibPrelude.Idmef.PathParse
import LibPrelude.Idmef.Literals

/-! # The grammar of paths

A path is written as the names of children from class to class with dots between them,
and a child that is a list may have an index. The parser cuts the text at every dot and
at the first parentheses instead, reads a number from the start of an index and stores
it as an int. It reads what is written unless an index has more in it than it should.
-/

namespace LibPrelude

/-- The name of a child in any case, with the number of the child. -/
def NamesChild (cls : IdmefClassId) (name : List UInt8) (position : ℕ) (c : Child) : Prop :=
  (∃ n, cls.childNames[position]? = some n ∧ (ascii n).map toLower = name.map toLower) ∧
    cls.children[position]? = some c

/-- An index as it is written, with what stands for it in a path and its key. -/
inductive IndexWritten : List UInt8 → ℤ → Option (List UInt8) → Prop
  | every : IndexWritten (ascii "*") indexUndefined none
  | first : IndexWritten (ascii "<<") idmefListPrepend none
  | last : IndexWritten (ascii ">>") idmefListAppend none
  | key {q : UInt8} {key : List UInt8} : q = 39 ∨ q = 34 → q ∉ key →
      IndexWritten (q :: (key ++ [q])) indexKey (some key)
  | number {text : List UInt8} {v : ℤ} : IntegerLiteral text v → indexForbidden < v →
      v < idmefListPrepend → IndexWritten text v none

/-- A name, and an index when the child is a list, with the step they stand for. -/
inductive PartWritten (cls : IdmefClassId) : List UInt8 → IdmefPathElement → Child → Prop
  | plain {name : List UInt8} {position : ℕ} {c : Child} : NamesChild cls name position c →
      PartWritten cls name ⟨if c.isList then indexUndefined else indexForbidden, none, position⟩ c
  | indexed {name text : List UInt8} {position : ℕ} {c : Child} {index : ℤ}
      {key : Option (List UInt8)} : NamesChild cls name position c → c.isList →
      (index = indexKey → c.isKeyedList) → IndexWritten text index key →
      PartWritten cls (name ++ 40 :: (text ++ [41])) ⟨index, key, position⟩ c

inductive ElementsWritten : IdmefClassId → List UInt8 → List IdmefPathElement → Prop
  | last {cls : IdmefClassId} {text : List UInt8} {e : IdmefPathElement} {c : Child} :
      PartWritten cls text e c → ElementsWritten cls text [e]
  | step {cls cls' : IdmefClassId} {part rest : List UInt8} {e : IdmefPathElement} {c : Child}
      {es : List IdmefPathElement} : PartWritten cls part e c → c.cls = some cls' →
      ElementsWritten cls' rest es → ElementsWritten cls (part ++ 46 :: rest) (e :: es)

/-- A path as it is written, with its steps. -/
def PathWritten (s : List UInt8) (es : List IdmefPathElement) : Prop :=
  es.length < maxDepth ∧ (s = [] ∧ es = [] ∨ ElementsWritten .message s es)

/-- What the parser takes the text between two parentheses for. -/
inductive IndexTaken : List UInt8 → ℤ → Option (List UInt8) → Prop
  | every : IndexTaken (ascii "*") indexUndefined none
  | first : IndexTaken (ascii "<<") idmefListPrepend none
  | last : IndexTaken (ascii ">>") idmefListAppend none
  | key {q : UInt8} {rest : List UInt8} : q = 39 ∨ q = 34 → (q :: rest).getLast? = some q →
      IndexTaken (q :: rest) indexKey (some rest.dropLast)
  | number {text : List UInt8} {v : ℤ} : strtolInt text = some v → IndexTaken text v none

/-- A piece between two dots: the child, the text up to the first closing parenthesis and what
follows it. -/
inductive Piece (cls : IdmefClassId) :
    List UInt8 → Child → Option (List UInt8 × List UInt8) → Prop
  | plain {name : List UInt8} {position : ℕ} {c : Child} : NamesChild cls name position c →
      Piece cls name c none
  | indexed {name text rest : List UInt8} {position : ℕ} {c : Child} :
      NamesChild cls name position c → 41 ∉ text →
      Piece cls (name ++ 40 :: (text ++ 41 :: rest)) c (some (text, rest))

/-- The pieces between the dots of a text. -/
inductive Pieces : IdmefClassId → List UInt8 →
    List (Child × Option (List UInt8 × List UInt8)) → Prop
  | last {cls : IdmefClassId} {text : List UInt8} {c : Child}
      {x : Option (List UInt8 × List UInt8)} : 46 ∉ text → Piece cls text c x →
      Pieces cls text [(c, x)]
  | step {cls cls' : IdmefClassId} {part rest : List UInt8} {c : Child}
      {x : Option (List UInt8 × List UInt8)}
      {ps : List (Child × Option (List UInt8 × List UInt8))} :
      46 ∉ part → Piece cls part c x → c.cls = some cls' → Pieces cls' rest ps →
      Pieces cls (part ++ 46 :: rest) ((c, x) :: ps)

/-- The index of a piece is none that the parser refuses. -/
def Bearable (c : Child) (x : Option (List UInt8 × List UInt8)) : Prop :=
  ∀ text rest, x = some (text, rest) → ∃ index key, IndexTaken text index key ∧
    (index = indexUndefined ∨ c.isList ∧ (index = indexKey → c.isKeyedList))

/-- The index of a piece is a written one of a list, and nothing follows it. -/
def Regular (c : Child) (x : Option (List UInt8 × List UInt8)) : Prop :=
  ∀ text rest, x = some (text, rest) → rest = [] ∧ c.isList ∧
    ∃ index key, IndexWritten text index key

/-- If no piece is refused then every index is regular. -/
def RegularIndexes (s : List UInt8) : Prop :=
  ∀ ps, Pieces .message s ps → ps.length < maxDepth → (∀ p ∈ ps, Bearable p.1 p.2) →
    ∀ p ∈ ps, Regular p.1 p.2

/-- No key has a byte that the parser cuts at. -/
def UncutKeys (es : List IdmefPathElement) : Prop :=
  ∀ e ∈ es, ∀ key, e.key = some key → 46 ∉ key ∧ 41 ∉ key

section

variable {cls : IdmefClassId} {name text part : List UInt8} {position : ℕ} {c : Child}
  {e : IdmefPathElement} {x : Option (List UInt8 × List UInt8)} {index v : ℤ}
  {key : Option (List UInt8)} {b : UInt8} {xs ys : List UInt8}

theorem splitAtByte_append (h : b ∉ xs) (ys : List UInt8) :
    splitAtByte b (xs ++ b :: ys) = (xs, some ys) := by
  have hxs : ∀ a ∈ xs, decide (a ≠ b) = true :=
    fun a ha => decide_eq_true (ne_of_mem_of_not_mem ha h)
  rw [splitAtByte, List.takeWhile_append_of_pos hxs, List.dropWhile_append_of_pos hxs]
  simp

theorem splitAtByte_of_not_mem (h : b ∉ xs) : splitAtByte b xs = (xs, none) := by
  have hxs : ∀ a ∈ xs, decide (a ≠ b) = true :=
    fun a ha => decide_eq_true (ne_of_mem_of_not_mem ha h)
  rw [splitAtByte, List.takeWhile_eq_self_iff.mpr hxs, List.dropWhile_eq_nil_iff.mpr hxs]
  rfl

theorem splitAtByte_cases (b : UInt8) (s : List UInt8) :
    b ∉ s ∧ splitAtByte b s = (s, none) ∨
    ∃ xs ys, s = xs ++ b :: ys ∧ b ∉ xs ∧ splitAtByte b s = (xs, some ys) := by
  by_cases h : b ∈ s
  · obtain ⟨xs, ys, rfl, hxs⟩ := List.eq_append_cons_of_mem h
    exact .inr ⟨xs, ys, rfl, hxs, splitAtByte_append hxs ys⟩
  · exact .inl ⟨h, splitAtByte_of_not_mem h⟩

theorem append_cons_inj {xs' ys' : List UInt8} (h : b ∉ xs) (h' : b ∉ xs')
    (heq : xs ++ b :: ys = xs' ++ b :: ys') : xs = xs' ∧ ys = ys' := by
  have hsplit := splitAtByte_append h ys
  rw [heq, splitAtByte_append h'] at hsplit
  cases hsplit
  exact ⟨rfl, rfl⟩

/-- The names of the children of a class are made of small letters and underscores, and no two are
the same. -/
def IdmefClassId.plainNames (cls : IdmefClassId) : Bool :=
  (cls.childNames.map ascii).Nodup &&
    (cls.childNames.map ascii).all fun n => n ≠ [] && n.all fun b => b = 95 || 97 ≤ b && b ≤ 122

def IdmefClassId.all : List IdmefClassId :=
  [.additionalData, .reference, .classification, .userId, .user, .address, .process, .webService,
    .snmpService, .service, .node, .source, .fileAccess, .inode, .checksum, .file, .linkage,
    .target, .analyzer, .alertident, .impact, .action, .confidence, .assessment, .toolAlert,
    .correlationAlert, .overflowAlert, .alert, .heartbeat, .message]

theorem IdmefClassId.mem_all (cls : IdmefClassId) : cls ∈ all := by
  cases cls <;> simp [all]

theorem plainNames_all : IdmefClassId.all.all IdmefClassId.plainNames = true := by
  decide +kernel

theorem childNames_plain (cls : IdmefClassId) :
    (cls.childNames.map ascii).Nodup ∧
      ∀ n ∈ cls.childNames, ascii n ≠ [] ∧ ∀ b ∈ ascii n, b = 95 ∨ 97 ≤ b ∧ b ≤ 122 := by
  simpa [IdmefClassId.plainNames] using List.all_eq_true.mp plainNames_all cls cls.mem_all

theorem toLower_of_letter {b : UInt8} (h : b = 95 ∨ 97 ≤ b ∧ b ≤ 122) : toLower b = b := by
  rcases h with rfl | ⟨h, -⟩
  · rfl
  · exact if_neg fun hupper => absurd (UInt8.le_trans h hupper.2) (by decide)

theorem lower_of_letter {a b : UInt8} (ha : a = 95 ∨ 97 ≤ a ∧ a ≤ 122)
    (h : toLower a = toLower b) : b ≠ 0 ∧ b ≠ 40 ∧ b ≠ 46 := by
  rw [toLower_of_letter ha] at h
  refine ⟨?_, ?_, ?_⟩ <;>
    · rintro rfl
      subst h
      revert ha
      decide

theorem NamesChild.plain (h : NamesChild cls name position c) :
    name ≠ [] ∧ ∀ b ∈ name, b ≠ 0 ∧ b ≠ 40 ∧ b ≠ 46 := by
  obtain ⟨⟨n, hn, heq⟩, -⟩ := h
  obtain ⟨hne, hletters⟩ := (childNames_plain cls).2 n (List.mem_of_getElem? hn)
  constructor
  · rintro rfl
    exact hne (List.map_eq_nil_iff.mp heq)
  · intro b hb
    have hlower : toLower b ∈ (ascii n).map toLower := heq ▸ List.mem_map_of_mem hb
    obtain ⟨a, ha, hab⟩ := List.mem_map.mp hlower
    exact lower_of_letter (hletters a ha) hab

theorem strcasecmp_iff {s t : List UInt8} (hs : 0 ∉ s) (ht : 0 ∉ t) :
    strcasecmp s t ↔ s.map toLower = t.map toLower := by
  rw [strcasecmp, PreludeString.cString_of_not_mem hs, PreludeString.cString_of_not_mem ht,
    decide_eq_true_eq]

theorem findChild_iff (h : 0 ∉ name) :
    idmefClassFindChild cls name = .ok position ∧ cls.children[position]? = some c ↔
      NamesChild cls name position c := by
  obtain ⟨hnodup, hletters⟩ := childNames_plain cls
  have hcompare (n : String) (hn : n ∈ cls.childNames) :
      strcasecmp (ascii n) name ↔ (ascii n).map toLower = name.map toLower := by
    refine strcasecmp_iff (fun hzero => ?_) h
    exact (lower_of_letter ((hletters n hn).2 0 hzero) rfl).1 rfl
  have hlower (n : String) (hn : n ∈ cls.childNames) : (ascii n).map toLower = ascii n := by
    exact (List.map_congr_left fun b hb => toLower_of_letter ((hletters n hn).2 b hb)).trans
      (List.map_id _)
  have hfind : idmefClassFindChild cls name = .ok position ↔
      cls.childNames.findIdx? (fun n => strcasecmp (ascii n) name) = some position := by
    rw [idmefClassFindChild]
    cases cls.childNames.findIdx? fun n => strcasecmp (ascii n) name <;> simp
  refine and_congr_left fun _ => hfind.trans ?_
  rw [List.findIdx?_eq_some_iff_getElem]
  constructor
  · rintro ⟨hlt, hn, -⟩
    exact ⟨_, List.getElem?_eq_getElem hlt, (hcompare _ (List.getElem_mem hlt)).mp hn⟩
  · rintro ⟨n, hn, heq⟩
    obtain ⟨hlt, rfl⟩ := List.getElem?_eq_some_iff.mp hn
    refine ⟨hlt, (hcompare _ (List.getElem_mem hlt)).mpr heq, fun j hj hfirst => ?_⟩
    have hj' : j < cls.childNames.length := hj.trans hlt
    have hsame : ascii cls.childNames[j] = ascii cls.childNames[position] := by
      rw [← hlower _ (List.getElem_mem hj'), ← hlower _ (List.getElem_mem hlt), heq]
      exact (hcompare _ (List.getElem_mem hj')).mp hfirst
    rw [← List.getElem_map ascii (h := by simpa), ← List.getElem_map ascii (h := by simpa)] at hsame
    exact absurd ((hnodup.getElem_inj_iff).mp hsame) hj.ne

theorem strtolInt_quote {q : UInt8} (h : q = 39 ∨ q = 34) (rest : List UInt8) :
    strtolInt (q :: rest) = none := by
  rcases h with rfl | rfl <;> rfl

theorem parseIndex_iff : parseIndex text = .ok (index, key) ↔ IndexTaken text index key := by
  constructor
  · intro h
    unfold parseIndex at h
    split_ifs at h with hfirst hlast hquoted hevery
    · cases h
      exact hfirst ▸ .first
    · cases h
      exact hlast ▸ .last
    · cases h
      obtain ⟨hhead, hlast⟩ := hquoted
      rcases text with _ | ⟨q, rest⟩
      · simp at hhead
      · exact .key (by simpa using hhead) hlast
    · cases h
      exact hevery ▸ .every
    · split at h
      · cases h
      · cases h
        exact .number ‹_›
  · intro h
    cases h with
    | every => rfl
    | first => rfl
    | last => rfl
    | @key q rest hq hlast =>
      have hmark : ∀ m ∈ [ascii "<<", ascii ">>"], q :: rest ≠ m := by
        rintro m hm rfl
        rcases hq with rfl | rfl <;> revert hm <;> simp [ascii]
      unfold parseIndex
      rw [if_neg (hmark _ (by simp)), if_neg (hmark _ (by simp)), if_pos]
      · rfl
      · exact ⟨by simpa using hq, hlast⟩
    | number hv =>
      have hmark : ∀ m ∈ [ascii "<<", ascii ">>", ascii "*"], text ≠ m := by
        rintro m hm rfl
        simp only [List.mem_cons, List.not_mem_nil, or_false] at hm
        rcases hm with rfl | rfl | rfl <;> cases hv
      unfold parseIndex
      rw [if_neg (hmark _ (by simp)), if_neg (hmark _ (by simp)), if_neg,
        if_neg (hmark _ (by simp)),
        hv]
      rintro ⟨hhead, -⟩
      rcases text with _ | ⟨q, rest⟩
      · simp at hhead
      · rw [strtolInt_quote (by simpa using hhead)] at hv
        cases hv

theorem strtolInt_of_literal (h : IntegerLiteral text v) :
    strtolInt text = some (Int.bmod (max (-2 ^ 63) (min (2 ^ 63 - 1) v)) (2 ^ 32)) := by
  have hdigits {bs : List UInt8} {n : ℕ} (hn : Magnitude bs n) :
      (numberBase bs).2.takeWhile (digitOf · < (numberBase bs).1) = (numberBase bs).2 ∧
        (numberBase bs).2 ≠ [] ∧ numberIn (numberBase bs).1 (numberBase bs).2 = n := by
    obtain ⟨hne, hall, heq⟩ := (magnitude_of_base (Prod.mk.eta.symm)).mp (magnitude_iff.mpr hn)
    exact ⟨List.takeWhile_eq_self_iff.mpr (List.all_eq_true.mp hall), hne, heq⟩
  cases h with
  | @plain blanks bs n hblanks hn =>
    obtain ⟨htake, hne, heq⟩ := hdigits hn
    obtain ⟨b, rest, rfl, hb, hplus, hminus⟩ := hn.head
    unfold strtolInt
    rw [dropWhile_blanks hblanks hb]
    split
    rename_i heq'
    split at heq'
    · exact absurd (List.cons.inj ‹_›).1 hminus
    · exact absurd (List.cons.inj ‹_›).1 hplus
    · cases heq'
      simp only [htake, heq, if_neg hne, Bool.false_eq_true, if_false]
  | @positive blanks bs n hblanks hn =>
    obtain ⟨htake, hne, heq⟩ := hdigits hn
    unfold strtolInt
    rw [dropWhile_blanks hblanks (by decide)]
    simp only [htake, heq, if_neg hne, Bool.false_eq_true, if_false]
  | @negative blanks bs n hblanks hn =>
    obtain ⟨htake, hne, heq⟩ := hdigits hn
    unfold strtolInt
    rw [dropWhile_blanks hblanks (by decide)]
    simp only [htake, heq, if_neg hne, if_true]

theorem IntegerLiteral.bytes (h : IntegerLiteral text v) : 41 ∉ text ∧ 46 ∉ text := by
  have hdigit {base : ℕ} (hbase : base ≤ 16) {bs : List UInt8} (hall : bs.all (digitOf · < base)) :
      ∀ b, 36 ≤ digitOf b → b ∉ bs := by
    intro b hb hmem
    have := of_decide_eq_true (List.all_eq_true.mp hall b hmem)
    omega
  have hblank {bs : List UInt8} (hall : bs.all isSpace) : ∀ b, isSpace b = false → b ∉ bs := by
    intro b hb hmem
    rw [List.all_eq_true.mp hall b hmem] at hb
    cases hb
  have hmagnitude {bs : List UInt8} {n : ℕ} (hn : Magnitude bs n) : 41 ∉ bs ∧ 46 ∉ bs := by
    cases hn with
    | decimal hb hall => exact ⟨hdigit (by decide) hall _ (by decide),
      hdigit (by decide) hall _ (by decide)⟩
    | octal hall => exact ⟨hdigit (by decide) hall _ (by decide),
      hdigit (by decide) hall _ (by decide)⟩
    | hexadecimal hx hall =>
      have h41 := hdigit (by decide) hall 41 (by decide)
      have h46 := hdigit (by decide) hall 46 (by decide)
      rcases hx with rfl | rfl <;> simp_all
  cases h with
  | plain hblanks hn | positive hblanks hn | negative hblanks hn =>
    have h41 := hblank hblanks 41 (by decide)
    have h46 := hblank hblanks 46 (by decide)
    obtain ⟨h41', h46'⟩ := hmagnitude hn
    simp_all

theorem IndexWritten.taken (h : IndexWritten text index key) : IndexTaken text index key := by
  cases h with
  | every => exact .every
  | first => exact .first
  | last => exact .last
  | @key q key hq hkey =>
    have hdrop : (key ++ [q]).dropLast = key := List.dropLast_concat
    have htaken : IndexTaken (q :: (key ++ [q])) indexKey (some (key ++ [q]).dropLast) :=
      .key hq (List.getLast?_concat : ((q :: key) ++ [q]).getLast? = some q)
    rwa [hdrop] at htaken
  | number hv hlow hhigh =>
    refine .number ?_
    rw [strtolInt_of_literal hv]
    simp only [indexForbidden, idmefListPrepend] at hlow hhigh
    congr 1
    rw [Int.bmod_def]
    norm_num
    omega

theorem IndexWritten.uncut (h : IndexWritten text index key)
    (hkey : ∀ k, key = some k → 46 ∉ k ∧ 41 ∉ k) : 41 ∉ text ∧ 46 ∉ text := by
  cases h with
  | every => decide
  | first => decide
  | last => decide
  | @key q key hq _ =>
    obtain ⟨h46, h41⟩ := hkey _ rfl
    rcases hq with rfl | rfl <;> simp_all
  | number hv => exact hv.bytes

theorem IndexTaken.uncut (h : IndexTaken text index key) (h41 : 41 ∉ text) (h46 : 46 ∉ text) :
    ∀ k, key = some k → 46 ∉ k ∧ 41 ∉ k := by
  cases h with
  | @key q rest hq hlast =>
    rintro k hk
    cases hk
    exact ⟨fun hmem => h46 (List.mem_cons_of_mem q (List.mem_of_mem_dropLast hmem)),
      fun hmem => h41 (List.mem_cons_of_mem q (List.mem_of_mem_dropLast hmem))⟩
  | _ => nofun

end

end LibPrelude
