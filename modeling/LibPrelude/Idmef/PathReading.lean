import LibPrelude.Idmef.PathGrammar

/-! # Which paths are read as they are written

The parser is followed piece by piece. It accepts the pieces that are bearable, and a
piece is read as it is written just if its index is regular. So a path is read as it is
written unless a piece has an irregular index and no other is refused, or the path has a
key with a dot or a parenthesis in it.
-/

namespace LibPrelude

section

variable {cls : IdmefClassId} {text part : List UInt8} {c : Child} {e : IdmefPathElement}
  {es : List IdmefPathElement} {x : Option (List UInt8 × List UInt8)}
  {ps : List (Child × Option (List UInt8 × List UInt8))} {n : ℕ}

theorem parsePart_plain {name : List UInt8} (h : 40 ∉ name) :
    parsePart name = .ok (name, indexUndefined, none) := by
  rw [parsePart, splitAtByte_of_not_mem h]

theorem parsePart_indexed {name tok rest : List UInt8} (h : 40 ∉ name) (ht : 41 ∉ tok) :
    parsePart (name ++ 40 :: (tok ++ 41 :: rest)) =
      (parseIndex tok).map fun index => (name, index) := by
  simp only [parsePart, splitAtByte_append h, splitAtByte_append ht]

theorem parsePart_cases (part : List UInt8) :
    40 ∉ part ∨ (∃ e, parsePart part = .error e) ∨
      ∃ name tok rest, part = name ++ 40 :: (tok ++ 41 :: rest) ∧ 40 ∉ name ∧ 41 ∉ tok := by
  rcases splitAtByte_cases 40 part with ⟨h, -⟩ | ⟨name, rest, rfl, hname, hsplit⟩
  · exact .inl h
  · rcases splitAtByte_cases 41 rest with ⟨-, hrest⟩ | ⟨tok, after, rfl, htok, -⟩
    · exact .inr (.inl ⟨.generic, by simp only [parsePart, hsplit, hrest]⟩)
    · exact .inr (.inr ⟨name, tok, after, rfl, hname, htok⟩)

theorem parseElement_iff {name : List UInt8} {index : ℤ} {key : Option (List UInt8)}
    (h0 : 0 ∉ name) (hpart : parsePart part = .ok (name, index, key)) :
    parseElement cls part = .ok (e, c) ↔ NamesChild cls name e.position c ∧
      (index = indexUndefined ∧
          e = ⟨if c.isList then indexUndefined else indexForbidden, key, e.position⟩ ∨
        index ≠ indexUndefined ∧ c.isList ∧ (index = indexKey → c.isKeyedList) ∧
          e = ⟨index, key, e.position⟩) := by
  obtain ⟨i, k, position⟩ := e
  rw [← findChild_iff h0]
  simp only [parseElement, hpart]
  rcases idmefClassFindChild cls name with err | child
  · simp
  simp only
  rcases hc : cls.children[child]? with _ | c'
  · simp only [reduceCtorEq, false_iff, not_and]
    rintro ⟨hchild, hc'⟩
    cases hchild
    rw [hc] at hc'
    cases hc'
  constructor
  · intro h
    simp only at h
    split_ifs at h with hu hl hl hk
    · cases h
      exact ⟨⟨rfl, hc⟩, .inl ⟨hu, by rw [if_pos hl]⟩⟩
    · cases h
      exact ⟨⟨rfl, hc⟩, .inl ⟨hu, by rw [if_neg hl]⟩⟩
    · cases h
      exact ⟨⟨rfl, hc⟩, .inr ⟨hu, hl, fun hkey => by_contra fun hn => hk ⟨hkey, hn⟩, rfl⟩⟩
  · rintro ⟨⟨hchild, hc'⟩, h⟩
    cases hchild
    cases hc.symm.trans hc'
    simp only
    rcases h with ⟨hu, he⟩ | ⟨hu, hl, hk, he⟩
    · rw [if_pos hu, he]
    · rw [if_neg hu, if_neg (not_not_intro hl), if_neg fun hn => hn.2 (hk hn.1), he]

theorem NamesChild.unique {name : List UInt8} {position position' : ℕ} {c' : Child}
    (h : NamesChild cls name position c) (h' : NamesChild cls name position' c') :
    position = position' ∧ c = c' := by
  have h0 : 0 ∉ name := fun hmem => (h.plain.2 0 hmem).1 rfl
  rw [← findChild_iff h0] at h h'
  cases h.1.symm.trans h'.1
  cases h.2.symm.trans h'.2
  exact ⟨rfl, rfl⟩

theorem NamesChild.not_mem {name : List UInt8} {position : ℕ} (h : NamesChild cls name position c) :
    0 ∉ name ∧ 40 ∉ name ∧ 46 ∉ name :=
  ⟨fun hmem => (h.plain.2 0 hmem).1 rfl, fun hmem => (h.plain.2 40 hmem).2.1 rfl,
    fun hmem => (h.plain.2 46 hmem).2.2 rfl⟩

/-- A part that is accepted is a bearable piece, and it is read as it is written if its index is
regular. -/
theorem element_of_ok (h0 : 0 ∉ part) (h : parseElement cls part = .ok (e, c)) :
    ∃ x, Piece cls part c x ∧ Bearable c x ∧
      (46 ∉ part → ∀ k, e.key = some k → 46 ∉ k ∧ 41 ∉ k) ∧
      (Regular c x → PartWritten cls part e c) := by
  rcases parsePart_cases part with h40 | ⟨err, herr⟩ | ⟨name, tok, rest, rfl, h40, h41⟩
  · obtain ⟨hname, ⟨-, he⟩ | ⟨hne, -⟩⟩ := (parseElement_iff h0 (parsePart_plain h40)).mp h
    · refine ⟨none, .plain hname, nofun, fun _ k hk => ?_, fun _ => ?_⟩
      · rw [he] at hk
        cases hk
      · rw [he]
        exact .plain hname
    · exact absurd rfl hne
  · simp [parseElement, herr] at h
  · have h0' : 0 ∉ name := fun hmem => h0 (List.mem_append_left _ hmem)
    have hpart := @parsePart_indexed name tok rest h40 h41
    rcases hindex : parseIndex tok with err | ⟨index, key⟩
    · rw [hindex] at hpart
      have herr : parsePart (name ++ 40 :: (tok ++ 41 :: rest)) = .error err := hpart
      simp [parseElement, herr] at h
    · rw [hindex] at hpart
      have htaken := parseIndex_iff.mp hindex
      obtain ⟨hname, htook⟩ := (parseElement_iff h0' hpart).mp h
      have hkey : e.key = key := by
        rcases htook with ⟨-, he⟩ | ⟨-, -, -, he⟩ <;> rw [he]
      refine ⟨some (tok, rest), .indexed hname h41, ?_, fun h46 => ?_, fun hregular => ?_⟩
      · rintro _ _ ⟨⟩
        exact ⟨index, key, htaken, htook.imp And.left fun hlist => ⟨hlist.2.1, hlist.2.2.1⟩⟩
      · rw [hkey]
        exact htaken.uncut h41 fun hmem => h46 (by simp [hmem])
      · obtain ⟨rfl, hlist, index', key', hwritten⟩ := hregular tok rest rfl
        cases hindex.symm.trans (parseIndex_iff.mpr hwritten.taken)
        rcases htook with ⟨hu, he⟩ | ⟨-, -, hkeyed, he⟩
        · rw [if_pos hlist, ← hu] at he
          rw [he]
          exact .indexed hname hlist (fun hk => absurd (hu.symm.trans hk) (by decide)) hwritten
        · rw [he]
          exact .indexed hname hlist hkeyed hwritten

theorem element_of_written (h : PartWritten cls part e c)
    (hkey : ∀ k, e.key = some k → 46 ∉ k ∧ 41 ∉ k) :
    parseElement cls part = .ok (e, c) ∧ 46 ∉ part := by
  cases h with
  | plain hname =>
    obtain ⟨h0, h40, h46⟩ := hname.not_mem
    exact ⟨(parseElement_iff h0 (parsePart_plain h40)).mpr ⟨hname, .inl ⟨rfl, rfl⟩⟩, h46⟩
  | @indexed name text position c index key hname hlist hkeyed hwritten =>
    obtain ⟨h0, h40, h46⟩ := hname.not_mem
    obtain ⟨ht41, ht46⟩ := hwritten.uncut hkey
    have hpart := @parsePart_indexed name text [] h40 ht41
    rw [parseIndex_iff.mpr hwritten.taken] at hpart
    refine ⟨(parseElement_iff h0 hpart).mpr ⟨hname, ?_⟩, by simp [h46, ht46]⟩
    by_cases hu : index = indexUndefined
    · exact .inl ⟨hu, by rw [if_pos hlist, hu]⟩
    · exact .inr ⟨hu, hlist, hkeyed, rfl⟩

theorem element_of_piece (h : Piece cls part c x) (hb : Bearable c x) :
    ∃ e, parseElement cls part = .ok (e, c) := by
  cases h with
  | @plain _ position _ hname =>
    obtain ⟨h0, h40, -⟩ := hname.not_mem
    exact ⟨⟨_, none, position⟩,
      (parseElement_iff h0 (parsePart_plain h40)).mpr ⟨hname, .inl ⟨rfl, rfl⟩⟩⟩
  | @indexed name text rest position c hname h41 =>
    obtain ⟨h0, h40, -⟩ := hname.not_mem
    obtain ⟨index, key, htaken, hor⟩ := hb _ _ rfl
    have hpart := @parsePart_indexed name text rest h40 h41
    rw [parseIndex_iff.mpr htaken] at hpart
    by_cases hu : index = indexUndefined
    · exact ⟨⟨_, key, position⟩, (parseElement_iff h0 hpart).mpr ⟨hname, .inl ⟨hu, rfl⟩⟩⟩
    · obtain ⟨hlist, hkeyed⟩ := hor.resolve_left hu
      exact ⟨⟨index, key, position⟩,
        (parseElement_iff h0 hpart).mpr ⟨hname, .inr ⟨hu, hlist, hkeyed, rfl⟩⟩⟩

theorem regular_of_written {c' : Child} (h : Piece cls part c x) (hw : PartWritten cls part e c')
    (hkey : ∀ k, e.key = some k → 46 ∉ k ∧ 41 ∉ k) : c = c' ∧ Regular c x := by
  cases h with
  | plain hname =>
    refine ⟨?_, nofun⟩
    cases hw with
    | plain hname' => exact (hname.unique hname').2
    | indexed _ _ _ _ => exact absurd (by simp) hname.not_mem.2.1
  | @indexed name text rest position c hname h41 =>
    generalize hpart : name ++ 40 :: (text ++ 41 :: rest) = part at hw
    cases hw with
    | plain hname' => exact absurd (by simp [← hpart]) hname'.not_mem.2.1
    | indexed hname' hlist' hkeyed' hwritten =>
      obtain ⟨rfl, htext⟩ := append_cons_inj hname.not_mem.2.1 hname'.not_mem.2.1 hpart
      obtain ⟨rfl, rfl⟩ := append_cons_inj h41 (hwritten.uncut hkey).1 htext
      obtain ⟨rfl, rfl⟩ := hname.unique hname'
      refine ⟨rfl, ?_⟩
      rintro _ _ ⟨⟩
      exact ⟨rfl, hlist', _, _, hwritten⟩

theorem Child.class_of_cls {cls' : IdmefClassId} (h : c.cls = some cls') :
    c.valueType = .class := by
  unfold Child.cls at h
  unfold Child.valueType
  split at h <;> simp_all

theorem parseElements_zero : parseElements 0 cls text ≠ .ok es := by
  intro h
  unfold parseElements at h
  split at h
  · cases h
  · split_ifs at h

theorem parseElements_last (h : 46 ∉ text) : parseElements (n + 1) cls text = .ok es ↔
    ∃ e c, parseElement cls text = .ok (e, c) ∧ es = [e] := by
  rw [parseElements, splitAtByte_of_not_mem h]
  rcases parseElement cls text with err | ⟨e, c⟩
  · simp
  · simp [eq_comm]

theorem parseElements_step {rest : List UInt8} (h : 46 ∉ part) :
    parseElements (n + 1) cls (part ++ 46 :: rest) = .ok es ↔
      ∃ e c cls' es', parseElement cls part = .ok (e, c) ∧ c.cls = some cls' ∧
        parseElements n cls' rest = .ok es' ∧ es = e :: es' := by
  rw [parseElements, splitAtByte_append h]
  rcases parseElement cls part with err | ⟨e, c⟩
  · simp
  rcases hcls : c.cls with _ | cls'
  · simp only [Option.isSome_some, and_true]
    split_ifs <;> simp [hcls]
  · simp only [Child.class_of_cls hcls, hcls, ne_eq, not_true_eq_false, false_and, if_false]
    rcases hes : parseElements n cls' rest with err | es'
    · simp only [Except.map, reduceCtorEq, false_iff]
      rintro ⟨_, _, _, _, ⟨⟩, hcls', hes', -⟩
      cases hcls.symm.trans hcls'
      cases hes.symm.trans hes'
    · simp only [Except.map, Except.ok.injEq]
      constructor
      · rintro rfl
        exact ⟨e, c, cls', es', rfl, hcls, hes, rfl⟩
      · rintro ⟨_, _, _, _, ⟨⟩, hcls', hes', rfl⟩
        cases hcls.symm.trans hcls'
        cases hes.symm.trans hes'
        rfl

/-- A text that is accepted is cut into bearable pieces, and it is read as it is written if their
indexes are regular. -/
theorem elements_of_ok (h0 : 0 ∉ text) (h : parseElements n cls text = .ok es) :
    es.length ≤ n ∧ UncutKeys es ∧ ∃ ps, Pieces cls text ps ∧ ps.length ≤ n ∧
      (∀ p ∈ ps, Bearable p.1 p.2) ∧
      ((∀ p ∈ ps, Regular p.1 p.2) → ElementsWritten cls text es) := by
  induction n generalizing cls text es with
  | zero => exact absurd h parseElements_zero
  | succ n ih =>
    rcases splitAtByte_cases 46 text with ⟨h46, -⟩ | ⟨part, rest, rfl, h46, -⟩
    · obtain ⟨e, c, he, rfl⟩ := (parseElements_last h46).mp h
      obtain ⟨x, hpiece, hbearable, huncut, hwritten⟩ := element_of_ok h0 he
      refine ⟨by simp, by simpa [UncutKeys] using huncut h46, [(c, x)], .last h46 hpiece, by simp,
        by simpa using hbearable, fun hregular => .last (hwritten ?_)⟩
      exact hregular _ (List.mem_singleton_self _)
    · obtain ⟨e, c, cls', es', he, hcls, hes, rfl⟩ := (parseElements_step h46).mp h
      obtain ⟨x, hpiece, hbearable, huncut, hwritten⟩ :=
        element_of_ok (fun hmem => h0 (List.mem_append_left _ hmem)) he
      obtain ⟨hlength, hkeys, ps, hps, hps', hbearables, hwrittens⟩ :=
        ih (fun hmem => h0 (by simp [hmem])) hes
      refine ⟨by simpa using hlength, ?_, (c, x) :: ps,
        .step h46 hpiece hcls hps, by simpa using hps',
        ?_, fun hregular => ?_⟩
      · exact List.forall_mem_cons.mpr ⟨huncut h46, hkeys⟩
      · exact List.forall_mem_cons.mpr ⟨hbearable, hbearables⟩
      · obtain ⟨hfirst, hrest⟩ := List.forall_mem_cons.mp hregular
        exact .step (hwritten hfirst) hcls (hwrittens hrest)

theorem elements_of_written (h : ElementsWritten cls text es) (hkeys : UncutKeys es)
    (hn : es.length ≤ n) : parseElements n cls text = .ok es := by
  induction h generalizing n with
  | last hpart =>
    obtain ⟨n, rfl⟩ := Nat.exists_eq_succ_of_ne_zero (Nat.pos_iff_ne_zero.mp hn)
    obtain ⟨he, h46⟩ := element_of_written hpart (hkeys _ (List.mem_singleton_self _))
    exact (parseElements_last h46).mpr ⟨_, _, he, rfl⟩
  | step hpart hcls _ ih =>
    obtain ⟨n, rfl⟩ := Nat.exists_eq_succ_of_ne_zero (Nat.pos_iff_ne_zero.mp
      ((Nat.zero_lt_succ _).trans_le hn))
    obtain ⟨hkey, hkeys⟩ := List.forall_mem_cons.mp hkeys
    obtain ⟨he, h46⟩ := element_of_written hpart hkey
    exact (parseElements_step h46).mpr
      ⟨_, _, _, _, he, hcls, ih hkeys (Nat.le_of_succ_le_succ hn), rfl⟩

theorem elements_of_pieces (h : Pieces cls text ps) (hb : ∀ p ∈ ps, Bearable p.1 p.2)
    (hn : ps.length ≤ n) : ∃ es, parseElements n cls text = .ok es := by
  induction h generalizing n with
  | last h46 hpiece =>
    obtain ⟨n, rfl⟩ := Nat.exists_eq_succ_of_ne_zero (Nat.pos_iff_ne_zero.mp hn)
    obtain ⟨e, he⟩ := element_of_piece hpiece (hb _ (List.mem_singleton_self _))
    exact ⟨[e], (parseElements_last h46).mpr ⟨e, _, he, rfl⟩⟩
  | step h46 hpiece hcls _ ih =>
    obtain ⟨n, rfl⟩ := Nat.exists_eq_succ_of_ne_zero (Nat.pos_iff_ne_zero.mp
      ((Nat.zero_lt_succ _).trans_le hn))
    obtain ⟨hfirst, hb⟩ := List.forall_mem_cons.mp hb
    obtain ⟨e, he⟩ := element_of_piece hpiece hfirst
    obtain ⟨es, hes⟩ := ih hb (Nat.le_of_succ_le_succ hn)
    exact ⟨e :: es, (parseElements_step h46).mpr ⟨e, _, _, es, he, hcls, hes, rfl⟩⟩

theorem regular_of_elementsWritten (h : Pieces cls text ps) (hw : ElementsWritten cls text es)
    (hkeys : UncutKeys es) : ∀ p ∈ ps, Regular p.1 p.2 := by
  induction h generalizing es with
  | last h46 hpiece =>
    cases hw with
    | last hpart =>
      have hregular := (regular_of_written hpiece hpart (hkeys _ (List.mem_singleton_self _))).2
      simpa using hregular
    | step _ _ _ => exact absurd (by simp) h46
  | @step cls cls' part rest c x ps h46 hpiece hcls _ ih =>
    generalize htext : part ++ 46 :: rest = text at hw
    cases hw with
    | last hpart =>
      obtain ⟨-, h46'⟩ := element_of_written hpart (hkeys _ (List.mem_singleton_self _))
      exact absurd (by simp [← htext]) h46'
    | step hpart hcls' hrest =>
      obtain ⟨hkey, hkeys⟩ := List.forall_mem_cons.mp hkeys
      obtain ⟨rfl, rfl⟩ := append_cons_inj h46 (element_of_written hpart hkey).2 htext
      obtain ⟨rfl, hregular⟩ := regular_of_written hpiece hpart hkey
      cases hcls.symm.trans hcls'
      exact List.forall_mem_cons.mpr ⟨hregular, ih hrest hkeys⟩

end

/-- A path is accepted just if it is written as it should be, with the steps that are written. -/
def ReadAsWritten (s : List UInt8) : Prop :=
  ∀ path, idmefPathNewFast s = .ok path ↔
    path.topClass = .message ∧ PathWritten s path.elements

/-- No key of a path is cut, and the path does not fill the buffer for its name. -/
def Passable (s : List UInt8) : Prop :=
  ∀ es, PathWritten s es → s.length + 1 < maxNameLen ∧ UncutKeys es

section

variable {s text : List UInt8} {es : List IdmefPathElement} {path : IdmefPath}

theorem idmefPathNewFast_steps (hlen : s.length + 1 < maxNameLen) (hs : s ≠ []) :
    idmefPathNewFast s = .ok path ↔
      path.topClass = .message ∧ parseElements (maxDepth - 1) .message s = .ok path.elements := by
  obtain ⟨top, elements, valid⟩ := path
  rw [idmefPathNewFast, if_neg (Nat.not_le.mpr hlen), if_neg hs]
  split
  · rename_i err herr
    simp [herr]
  · rename_i es hes
    simp only [hes, Except.ok.injEq, IdmefPath.mk.injEq]
    exact ⟨fun h => ⟨h.1.symm, h.2⟩, fun h => ⟨h.1.symm, h.2⟩⟩

theorem elementsWritten_ne_nil {cls : IdmefClassId} (h : ElementsWritten cls text es) :
    text ≠ [] := by
  cases h with
  | last hpart =>
    cases hpart with
    | plain hname => exact hname.plain.1
    | indexed _ _ _ _ => simp
  | step _ _ _ => simp

theorem pieces_ne_nil {cls : IdmefClassId} {ps : List (Child × Option (List UInt8 × List UInt8))}
    (h : Pieces cls text ps) : text ≠ [] := by
  cases h with
  | last _ hpiece =>
    cases hpiece with
    | plain hname => exact hname.plain.1
    | indexed _ _ => simp
  | step _ _ _ _ => simp

theorem pathWritten_path (h : PathWritten s es) :
    ∃ path : IdmefPath, path.topClass = .message ∧ path.elements = es := by
  have hparts {cls : IdmefClassId} {part : List UInt8} {e : IdmefPathElement} {c : Child}
      (hpart : PartWritten cls part e c) :
      cls.children[e.position]? = some c ∧ (c.isList ∨ e.index = indexForbidden) := by
    cases hpart with
    | @plain _ _ c hname =>
      refine ⟨hname.2, ?_⟩
      by_cases hlist : c.isList
      · exact .inl hlist
      · exact .inr (if_neg hlist)
    | indexed hname hlist _ _ => exact ⟨hname.2, .inl hlist⟩
  have hvalid {cls : IdmefClassId} {text : List UInt8} {es : List IdmefPathElement}
      (h : ElementsWritten cls text es) : ValidElements cls es := by
    induction h with
    | last hpart => exact validElements_singleton (hparts hpart).1 (hparts hpart).2
    | step hpart hcls _ ih => exact validElements_step (hparts hpart).1 (hparts hpart).2 hcls ih
  rcases h.2 with ⟨-, rfl⟩ | h
  · exact ⟨⟨.message, [], trivial⟩, rfl, rfl⟩
  · exact ⟨⟨.message, es, hvalid h⟩, rfl, rfl⟩

theorem idmefPathNewFast_nil :
    idmefPathNewFast [] = .ok path ↔ path.topClass = .message ∧ path.elements = [] := by
  have hnil : idmefPathNewFast [] = .ok ⟨.message, [], trivial⟩ := rfl
  obtain ⟨top, elements, valid⟩ := path
  constructor
  · intro h
    cases hnil.symm.trans h
    exact ⟨rfl, rfl⟩
  · rintro ⟨rfl, rfl⟩
    exact hnil

theorem pathWritten_nil : PathWritten [] es ↔ es = [] := by
  constructor
  · rintro ⟨-, ⟨-, h⟩ | h⟩
    · exact h
    · exact absurd rfl (elementsWritten_ne_nil h)
  · rintro rfl
    exact ⟨by decide, .inl ⟨rfl, rfl⟩⟩

theorem pathWritten_of_ne_nil (hs : s ≠ []) :
    PathWritten s es ↔ es.length < maxDepth ∧ ElementsWritten .message s es := by
  simp [PathWritten, hs]

theorem regularIndexes_of_readAsWritten (h0 : 0 ∉ s) (hlen : s.length + 1 < maxNameLen)
    (h : ReadAsWritten s) : RegularIndexes s := by
  intro ps hps hdepth hbearable
  have hs := pieces_ne_nil hps
  obtain ⟨es, hes⟩ := elements_of_pieces hps hbearable (Nat.le_pred_of_lt hdepth)
  obtain ⟨path, htop, rfl⟩ : ∃ path : IdmefPath, path.topClass = .message ∧ path.elements = es :=
    ⟨⟨.message, es, parseElements_valid hes⟩, rfl, rfl⟩
  have hwritten := ((h path).mp ((idmefPathNewFast_steps hlen hs).mpr ⟨htop, hes⟩)).2
  exact regular_of_elementsWritten hps ((pathWritten_of_ne_nil hs).mp hwritten).2
    (elements_of_ok h0 hes).2.1

/-- A path is read as it is written just if no key of it is cut, it does not fill the buffer for
its name, and it has no irregular index unless the path is refused. -/
theorem path_read_iff (s : List UInt8) (h0 : 0 ∉ s) (hlen : s.length < maxNameLen) :
    ReadAsWritten s ↔ Passable s ∧ (s.length + 1 < maxNameLen → RegularIndexes s) := by
  constructor
  · intro h
    refine ⟨fun es hwritten => ?_, fun hshort => regularIndexes_of_readAsWritten h0 hshort h⟩
    obtain ⟨path, htop, rfl⟩ := pathWritten_path hwritten
    have hok := (h path).mpr ⟨htop, hwritten⟩
    have hshort : s.length + 1 < maxNameLen := by
      by_contra hlong
      rw [idmefPathNewFast, if_pos (Nat.not_lt.mp hlong)] at hok
      cases hok
    refine ⟨hshort, ?_⟩
    rcases eq_or_ne s [] with rfl | hs
    · rw [pathWritten_nil.mp hwritten]
      exact fun _ hmem => absurd hmem (List.not_mem_nil)
    · exact (elements_of_ok h0 ((idmefPathNewFast_steps hshort hs).mp hok).2).2.1
  · rintro ⟨hpassable, hregular⟩ path
    rcases eq_or_ne s [] with rfl | hs
    · rw [idmefPathNewFast_nil, pathWritten_nil]
    by_cases hshort : s.length + 1 < maxNameLen
    · rw [idmefPathNewFast_steps hshort hs, and_congr_right_iff]
      intro htop
      constructor
      · intro hes
        obtain ⟨hdepth, -, ps, hps, hps', hbearable, hwritten⟩ := elements_of_ok h0 hes
        have hdepth' : maxDepth - 1 < maxDepth := by decide
        exact (pathWritten_of_ne_nil hs).mpr ⟨hdepth.trans_lt hdepth',
          hwritten (hregular hshort ps hps (hps'.trans_lt hdepth') hbearable)⟩
      · intro hwritten
        obtain ⟨hdepth, helements⟩ := (pathWritten_of_ne_nil hs).mp hwritten
        exact elements_of_written helements (hpassable _ hwritten).2 (Nat.le_pred_of_lt hdepth)
    · constructor
      · intro hok
        rw [idmefPathNewFast, if_pos (Nat.not_lt.mp hshort)] at hok
        cases hok
      · rintro ⟨-, hwritten⟩
        exact absurd (hpassable _ hwritten).1 hshort

theorem path_read_whole : ReadAsWritten (ascii "alert.source(0)") ↔
    Passable (ascii "alert.source(0)") ∧
      ((ascii "alert.source(0)").length + 1 < maxNameLen →
        RegularIndexes (ascii "alert.source(0)")) :=
  path_read_iff _ (by decide) (by decide)

/-- What follows the closing parenthesis of an index is passed over. -/
theorem path_read_trailing : ¬ ReadAsWritten (ascii "alert.source(0)x") := by
  intro h
  have hregular := regularIndexes_of_readAsWritten (by decide) (by decide) h
  have halert : NamesChild .message (ascii "alert") 1 ⟨1, (IdmefClassId.message.fields[1]).type,
      some ⟨1, "alert", .alert⟩⟩ := ⟨⟨"alert", rfl, rfl⟩, rfl⟩
  have hsource : NamesChild .alert (ascii "source") 6 ⟨6, .structList .source false, none⟩ :=
    ⟨⟨"source", rfl, rfl⟩, rfl⟩
  have hpieces : Pieces .message (ascii "alert" ++ 46 :: (ascii "source" ++ 40 ::
      (ascii "0" ++ 41 :: ascii "x"))) _ :=
    .step (by decide) (.plain halert) rfl (.last (by decide) (.indexed hsource (by decide)))
  have hindex : IndexTaken (ascii "0") 0 none := .number rfl
  have hend := hregular _ hpieces (by decide) (by
    rintro p hp
    simp only [List.mem_cons, List.not_mem_nil, or_false] at hp
    rcases hp with rfl | rfl
    · exact nofun
    · rintro _ _ ⟨⟩
      exact ⟨0, none, hindex, .inr ⟨rfl, by decide⟩⟩) _
    (List.mem_cons_of_mem _ (List.mem_singleton_self _))
  cases (hend _ _ rfl).1

end

end LibPrelude
