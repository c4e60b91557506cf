import LibPrelude.Options.Wide

/-! # The round trip of options

A tree of options comes back from its message as it was, unless a name, a description or a value
in it is empty: no text that is read is empty, and no empty value is sent.
-/

namespace LibPrelude

open Bytes

mutual

/-- An option as it comes back, with the same options of its own. -/
def SameOption : PreludeOption → PreludeOption → Prop
  | .mk a as, .mk b bs =>
    a.longopt = b.longopt ∧ a.type = b.type ∧ a.hasArg = b.hasArg ∧ a.inputType = b.inputType ∧
      a.description = b.description ∧ a.value = b.value ∧ SameOptions as bs

def SameOptions : List PreludeOption → List PreludeOption → Prop
  | [], [] => True
  | a :: as, b :: bs => SameOption a b ∧ SameOptions as bs
  | _, _ => False

end

/-- The data of a wide option without a context; its texts have no null byte. -/
structure OptionInfo.Wide (opt : OptionInfo) : Prop where
  wide : opt.type &&& optionTypeWide ≠ 0
  untyped : opt.type &&& optionTypeContext = 0
  longopt : ∃ name, opt.longopt = some name ∧ 0 ∉ name
  description : ∀ text, opt.description = some text → 0 ∉ text
  value : ∀ text, opt.value = some text → 0 ∉ text

/-- No text of the option is empty. -/
structure OptionInfo.Named (opt : OptionInfo) : Prop where
  longopt : opt.longopt ≠ some []
  description : opt.description ≠ some []
  value : opt.value ≠ some []

mutual

/-- A property of all options of a tree. -/
def PreludeOption.All (p : OptionInfo → Prop) : PreludeOption → Prop
  | .mk opt optlist => p opt ∧ AllOptions p optlist

def AllOptions (p : OptionInfo → Prop) : List PreludeOption → Prop
  | [] => True
  | opt :: opts => opt.All p ∧ AllOptions p opts

end

/-- The reading of options without the bound on the chunks that are left. -/
def readOptions (chunks : List OptionChunk) (opt : PreludeOption) :
    Ret × List OptionChunk × PreludeOption := (readOptionList chunks opt).1

section

variable {chunks rest : List OptionChunk} {opt : PreludeOption} {tag : UInt8} {buf : List UInt8}

theorem readOptions_nil : readOptions [] opt = (.ok (), [], opt) := by
  rw [readOptions, readOptionList]

theorem readOptions_start : readOptions ((msgOptionStart, buf) :: rest) opt =
    readOptions (readOptions rest newOption).2.1
      (opt.addTail (readOptions rest newOption).2.2) := by
  rw [readOptions, readOptionList, if_pos rfl]
  rfl

theorem readOptions_end : readOptions ((msgOptionEnd, buf) :: rest) opt = (.ok (), rest, opt) := by
  rw [readOptions, readOptionList, if_neg (by decide), if_pos rfl]

theorem readOptions_field (hs : tag ≠ msgOptionStart) (he : tag ≠ msgOptionEnd) :
    readOptions ((tag, buf) :: rest) opt =
      match readOptionField tag buf opt with
      | .error e => (.error e, rest, opt)
      | .ok opt => readOptions rest opt := by
  rw [readOptions, readOptionList, if_neg hs, if_neg he]
  cases readOptionField tag buf opt <;> rfl

theorem readOptions_ok {opt' : PreludeOption} (hs : tag ≠ msgOptionStart) (he : tag ≠ msgOptionEnd)
    (hf : readOptionField tag buf opt = .ok opt') :
    readOptions ((tag, buf) :: rest) opt = readOptions rest opt' := by
  rw [readOptions_field hs he, hf]

theorem extractUint32Safe_write (data : UInt32) :
    extractUint32Safe (beBytes 4 data.toNat) = .ok data := by
  rw [extractUint32Safe, if_neg (by simp)]
  have := extractUint32_beBytes [] [] data
  rw [List.nil_append, List.append_nil] at this
  exact congrArg Except.ok this

theorem extractCharactersSafe_write {text : List UInt8} (h : 0 ∉ text) :
    extractCharactersSafe (text ++ [0]) = if text = [] then .error .invalChar else .ok text := by
  rw [extractCharactersSafe]
  by_cases hnil : text = []
  · rw [if_pos hnil, if_pos (by simp [hnil])]
  · have hlen : 0 < text.length := List.length_pos_iff.mpr hnil
    have hkept : ¬ ((text ++ [0]).length < 2 ∨ (text ++ [0]).getLast? ≠ some 0) := by
      rw [List.length_append, List.getLast?_concat, List.length_singleton]
      rintro (hshort | hlast)
      · omega
      · exact hlast rfl
    rw [if_neg hnil, if_neg hkept, PreludeString.cString,
      List.takeWhile_append_of_pos fun b hb => by simpa using ne_of_mem_of_not_mem hb h]
    simp

theorem readOptionField_text {text : List UInt8} (h : extractCharactersSafe buf = .ok text) :
    readOptionField msgOptionName buf opt = .ok (opt.setInfo ({ · with longopt := some text })) ∧
    readOptionField msgOptionDesc buf opt =
      .ok (opt.setInfo ({ · with description := some text })) ∧
    readOptionField msgOptionValue buf opt = .ok (opt.setInfo ({ · with value := some text })) := by
  refine ⟨?_, ?_, ?_⟩
  · rw [readOptionField, if_neg (by decide), if_pos rfl, h]
    rfl
  · rw [readOptionField, if_neg (by decide), if_neg (by decide), if_pos rfl, h]
    rfl
  · rw [readOptionField, if_pos rfl, h]
    rfl

theorem readOptionField_uint32 {data : UInt32} (h : extractUint32Safe buf = .ok data) :
    readOptionField msgOptionType buf opt = .ok (opt.setInfo ({ · with type := data })) ∧
    readOptionField msgOptionHasArg buf opt = .ok (opt.setInfo ({ · with hasArg := data })) ∧
    readOptionField msgOptionInputType buf opt =
      .ok (opt.setInfo ({ · with inputType := data })) := by
  refine ⟨?_, ?_, ?_⟩
  · rw [readOptionField, if_neg (by decide), if_neg (by decide), if_neg (by decide),
      if_neg (by decide), if_neg (by decide), if_pos rfl, h]
    rfl
  · rw [readOptionField, if_neg (by decide), if_neg (by decide), if_neg (by decide),
      if_neg (by decide), if_pos rfl, h]
    rfl
  · rw [readOptionField, if_neg (by decide), if_neg (by decide), if_neg (by decide),
      if_neg (by decide), if_neg (by decide), if_neg (by decide), if_pos rfl, h]
    rfl

/-- The data of an option as they come back. -/
def receivedInfo (opt : OptionInfo) : OptionInfo :=
  { opt with shortopt := 0 }

mutual

def received : PreludeOption → PreludeOption
  | .mk opt optlist => .mk (receivedInfo opt) (receivedList optlist)

def receivedList : List PreludeOption → List PreludeOption
  | [] => []
  | opt :: opts => received opt :: receivedList opts

end

theorem readOptions_fields {info : OptionInfo} {context : Bool} (hw : info.Wide)
    (hn : info.Named) : readOptions ((sendOptionMsg false context info).tail ++ rest) newOption =
      readOptions rest (.mk (receivedInfo info) []) := by
  obtain ⟨longopt, shortopt, type, hasArg, inputType, description, value⟩ := info
  obtain ⟨-, huntyped, ⟨name, hname, hz⟩, hdesc, hvalue⟩ := hw
  obtain rfl : longopt = some name := hname
  have hne : name ≠ [] := fun h => hn.longopt (by rw [h])
  have hfilter : value.filter (· ≠ []) = value := by
    cases value with
    | none => rfl
    | some text => exact Option.filter_some_pos (by simpa using fun h => hn.value (by rw [h]))
  have hsend : (sendOptionMsg false context
      ⟨some name, shortopt, type, hasArg, inputType, description, value⟩).tail ++ rest =
      textWrite name msgOptionName :: uint32Write type msgOptionType ::
        uint32Write hasArg msgOptionHasArg :: uint32Write inputType msgOptionInputType ::
        ((description.map (textWrite · msgOptionDesc)).toList ++
          ((value.map (textWrite · msgOptionValue)).toList ++ rest)) := by
    dsimp only at huntyped
    unfold sendOptionMsg
    rw [hfilter]
    simp [huntyped]
  have htext {text : List UInt8} (hz : 0 ∉ text) (hne : text ≠ []) :
      extractCharactersSafe (text ++ [0]) = .ok text := by
    rw [extractCharactersSafe_write hz, if_neg hne]
  rw [hsend, textWrite, uint32Write, uint32Write, uint32Write,
    readOptions_ok (by decide) (by decide) (readOptionField_text (htext hz hne)).1,
    readOptions_ok (by decide) (by decide) (readOptionField_uint32 (extractUint32Safe_write _)).1,
    readOptions_ok (by decide) (by decide)
      (readOptionField_uint32 (extractUint32Safe_write _)).2.1,
    readOptions_ok (by decide) (by decide)
      (readOptionField_uint32 (extractUint32Safe_write _)).2.2]
  have hvalueRead (info : OptionInfo) (hnone : info.value = none) :
      readOptions ((value.map (textWrite · msgOptionValue)).toList ++ rest) (.mk info []) =
        readOptions rest (.mk { info with value } []) := by
    cases value with
    | none =>
      have hinfo : ({ info with value := none } : OptionInfo) = info := by rw [← hnone]
      rw [hinfo]
      rfl
    | some text =>
      have hne : text ≠ [] := fun h => hn.value (by rw [h])
      exact readOptions_ok (by decide) (by decide)
        (readOptionField_text (htext (hvalue text rfl) hne)).2.2
  cases description with
  | none => exact hvalueRead _ rfl
  | some text =>
    rw [Option.map_some, Option.toList_some, List.singleton_append, textWrite,
      readOptions_ok (by decide) (by decide)
        (readOptionField_text (htext (hdesc text rfl) fun h => hn.description (by rw [h]))).2.1]
    exact hvalueRead _ rfl

mutual

theorem readOptions_option {context : Bool} : ∀ (opt : PreludeOption) (node : PreludeOption),
    opt.All OptionInfo.Wide → opt.All OptionInfo.Named → ∀ rest,
      readOptions (constructOption false context opt ++ rest) node =
        readOptions rest (node.addTail (received opt))
  | .mk info optlist, node, hw, hn, rest => by
    have hwide := hw.1.wide
    have huntyped := hw.1.untyped
    have hchunks : constructOption false context (.mk info optlist) ++ rest =
        (msgOptionStart, []) :: ((sendOptionMsg false context info).tail ++
          (constructOptionMsg false context optlist ++ ((msgOptionEnd, []) :: rest))) := by
      simp [constructOption, sendOptionMsg, hwide, huntyped]
    rw [hchunks, readOptions_start, readOptions_fields hw.1 hn.1,
      readOptions_optlist optlist _ hw.2 hn.2, readOptions_end]
    rfl

theorem readOptions_optlist {context : Bool} : ∀ (opts : List PreludeOption)
    (node : PreludeOption), AllOptions OptionInfo.Wide opts → AllOptions OptionInfo.Named opts →
      ∀ rest, readOptions (constructOptionMsg false context opts ++ rest) node =
        readOptions rest (.mk node.info (node.optlist ++ receivedList opts))
  | [], .mk info optlist, _, _, rest => by
    simp [constructOptionMsg, receivedList, PreludeOption.info, PreludeOption.optlist]
  | opt :: opts, .mk info optlist, hw, hn, rest => by
    rw [constructOptionMsg, List.append_assoc, readOptions_option opt _ hw.1 hn.1,
      readOptions_optlist opts _ hw.2 hn.2]
    simp [PreludeOption.addTail, receivedList, PreludeOption.info, PreludeOption.optlist]

end

mutual

theorem sameOption_received : ∀ opt : PreludeOption, SameOption opt (received opt)
  | .mk _ optlist => ⟨rfl, rfl, rfl, rfl, rfl, rfl, sameOptions_received optlist⟩

theorem sameOptions_received : ∀ opts : List PreludeOption, SameOptions opts (receivedList opts)
  | [] => trivial
  | opt :: opts => ⟨sameOption_received opt, sameOptions_received opts⟩

end

mutual

theorem named_of_same : ∀ a b : PreludeOption, SameOption a b → b.All OptionInfo.Named →
    a.All OptionInfo.Named
  | .mk _ as, .mk _ bs, h, hb => by
    obtain ⟨hl, -, -, -, hd, hv, hs⟩ := h
    exact ⟨⟨hl ▸ hb.1.longopt, hd ▸ hb.1.description, hv ▸ hb.1.value⟩,
      namedOptions_of_same as bs hs hb.2⟩

theorem namedOptions_of_same : ∀ as bs : List PreludeOption, SameOptions as bs →
    AllOptions OptionInfo.Named bs → AllOptions OptionInfo.Named as
  | [], [], _, _ => trivial
  | a :: as, b :: bs, h, hb =>
    ⟨named_of_same a b h.1 hb.1, namedOptions_of_same as bs h.2 hb.2⟩

end

/-- The names, descriptions and values among the chunks are texts with one null byte. -/
def CleanTexts (chunks : List OptionChunk) : Prop :=
  ∀ chunk ∈ chunks,
    chunk.1 = msgOptionName ∨ chunk.1 = msgOptionDesc ∨ chunk.1 = msgOptionValue →
      ∃ text, 0 ∉ text ∧ chunk.2 = text ++ [0]

theorem CleanTexts.append {chunks chunks' : List OptionChunk} (h : CleanTexts chunks)
    (h' : CleanTexts chunks') :
    CleanTexts (chunks ++ chunks') := fun chunk hc =>
  (List.mem_append.mp hc).elim (h chunk) (h' chunk)

theorem named_of_readOptionField {opt' : PreludeOption} (hc : CleanTexts [(tag, buf)])
    (ho : opt.All OptionInfo.Named) (h : readOptionField tag buf opt = .ok opt') :
    opt'.All OptionInfo.Named := by
  obtain ⟨info, optlist⟩ := opt
  obtain ⟨⟨hname, hdesc, hvalue⟩, hopts⟩ := ho
  have htext (text : List UInt8)
      (htag : tag = msgOptionName ∨ tag = msgOptionDesc ∨ tag = msgOptionValue)
      (ht : extractCharactersSafe buf = .ok text) : text ≠ [] := by
    obtain ⟨text', hz, hbuf⟩ := hc _ List.mem_cons_self htag
    dsimp only at hbuf
    rw [hbuf, extractCharactersSafe_write hz] at ht
    split_ifs at ht with hne
    exact Except.ok.inj ht ▸ hne
  have hmap {α : Type} {x : Except ErrorCode α} {f : α → PreludeOption}
      (hx : x.map f = .ok opt') : ∃ a, x = .ok a ∧ f a = opt' := by
    cases x with
    | error e => cases hx
    | ok a => exact ⟨a, rfl, Except.ok.inj hx⟩
  unfold readOptionField at h
  split_ifs at h with hv hn hd hh ha ht hi
  · obtain ⟨a, hx, rfl⟩ := hmap h
    exact ⟨⟨hname, hdesc, fun heq => htext a (.inr (.inr hv)) hx (Option.some.inj heq)⟩, hopts⟩
  · obtain ⟨a, hx, rfl⟩ := hmap h
    exact ⟨⟨fun heq => htext a (.inl hn) hx (Option.some.inj heq), hdesc, hvalue⟩, hopts⟩
  · obtain ⟨a, hx, rfl⟩ := hmap h
    exact ⟨⟨hname, fun heq => htext a (.inr (.inl hd)) hx (Option.some.inj heq), hvalue⟩, hopts⟩
  · obtain ⟨a, -, rfl⟩ := hmap h
    exact ⟨⟨hname, hdesc, hvalue⟩, hopts⟩
  · obtain ⟨a, -, rfl⟩ := hmap h
    exact ⟨⟨hname, hdesc, hvalue⟩, hopts⟩
  · obtain ⟨a, -, rfl⟩ := hmap h
    exact ⟨⟨hname, hdesc, hvalue⟩, hopts⟩
  · obtain ⟨a, -, rfl⟩ := hmap h
    exact ⟨⟨hname, hdesc, hvalue⟩, hopts⟩
  · cases h
    exact ⟨⟨hname, hdesc, hvalue⟩, hopts⟩

theorem allOptions_append_singleton {p : OptionInfo → Prop} {opts : List PreludeOption} :
    AllOptions p (opts ++ [opt]) ↔ AllOptions p opts ∧ opt.All p := by
  induction opts with
  | nil => simp [AllOptions]
  | cons a opts ih => simp [AllOptions, ih, and_assoc]

theorem CleanTexts.tail {chunk : OptionChunk} (h : CleanTexts (chunk :: chunks)) :
    CleanTexts [chunk] ∧ CleanTexts chunks :=
  ⟨fun c hc => h c (List.mem_cons.mpr (.inl (List.mem_singleton.mp hc))),
    fun c hc => h c (List.mem_cons_of_mem _ hc)⟩

theorem named_newOption : newOption.All OptionInfo.Named :=
  ⟨⟨by rintro ⟨⟩, by rintro ⟨⟩, by rintro ⟨⟩⟩, trivial⟩

theorem named_of_readOptions (n : ℕ) : ∀ {chunks : List OptionChunk} {opt : PreludeOption},
    chunks.length ≤ n → CleanTexts chunks → opt.All OptionInfo.Named →
      (readOptions chunks opt).2.2.All OptionInfo.Named ∧
        (readOptions chunks opt).2.1 <:+ chunks := by
  induction n with
  | zero =>
    intro chunks opt hlen _ ho
    obtain rfl := List.length_eq_zero_iff.mp (Nat.le_zero.mp hlen)
    rw [readOptions_nil]
    exact ⟨ho, List.suffix_rfl⟩
  | succ n ih =>
    rintro (_ | ⟨⟨tag, buf⟩, rest⟩) opt hlen hc ho
    · rw [readOptions_nil]
      exact ⟨ho, List.suffix_rfl⟩
    · rw [List.length_cons, Nat.add_le_add_iff_right] at hlen
      have hrest := hc.tail.2
      by_cases hs : tag = msgOptionStart
      · subst hs
        rw [readOptions_start]
        obtain ⟨hnamed, hsuffix⟩ := ih hlen hrest
          named_newOption
        have hadd : (opt.addTail (readOptions rest newOption).2.2).All OptionInfo.Named := by
          cases opt
          exact ⟨ho.1, allOptions_append_singleton.mpr ⟨ho.2, hnamed⟩⟩
        obtain ⟨hnamed', hsuffix'⟩ := ih (hsuffix.length_le.trans hlen)
          (fun c hc => hrest c (hsuffix.subset hc)) hadd
        exact ⟨hnamed', (hsuffix'.trans hsuffix).trans (List.suffix_cons _ _)⟩
      · by_cases he : tag = msgOptionEnd
        · subst he
          rw [readOptions_end]
          exact ⟨ho, List.suffix_cons _ _⟩
        · rw [readOptions_field hs he]
          cases hf : readOptionField tag buf opt with
          | error e => exact ⟨ho, List.suffix_cons _ _⟩
          | ok opt' =>
            obtain ⟨hnamed, hsuffix⟩ :=
              ih hlen hrest (named_of_readOptionField hc.tail.1 ho hf)
            exact ⟨hnamed, hsuffix.trans (List.suffix_cons _ _)⟩

theorem clean_send {info : OptionInfo} {need context : Bool} (hw : info.Wide) :
    CleanTexts (sendOptionMsg need context info) := by
  obtain ⟨-, -, ⟨name, hname, hz⟩, hdesc, hvalue⟩ := hw
  rw [sendOptionMsg, hname]
  refine CleanTexts.append (CleanTexts.append ?_ ?_) ?_
  · intro chunk hc htag
    simp only [List.mem_cons, List.not_mem_nil, or_false] at hc
    rcases hc with rfl | rfl | rfl | rfl | rfl
    · exact absurd htag (by decide)
    · exact ⟨name, hz, rfl⟩
    all_goals exact absurd htag (by simp only [uint32Write]; decide)
  · intro chunk hc htag
    obtain ⟨text, htext, rfl⟩ := Option.map_eq_some_iff.mp (Option.mem_toList.mp hc)
    exact ⟨text, hdesc text htext, rfl⟩
  · intro chunk hc htag
    split_ifs at hc
    · cases hc
    · obtain ⟨text, htext, rfl⟩ := Option.map_eq_some_iff.mp (Option.mem_toList.mp hc)
      exact ⟨text, hvalue text (Option.filter_eq_some_iff.mp htext).1, rfl⟩

mutual

theorem clean_constructOption : ∀ opt : PreludeOption, opt.All OptionInfo.Wide →
    ∀ need context, CleanTexts (constructOption need context opt)
  | .mk info optlist, hw, need, context => by
    rw [constructOption]
    refine CleanTexts.append (CleanTexts.append ?_ (clean_constructMsg optlist hw.2 _ _)) ?_
    · split_ifs
      · exact clean_send hw.1
      · nofun
    · split_ifs
      · simp [CleanTexts, msgOptionEnd, msgOptionName, msgOptionDesc, msgOptionValue]
      · nofun

theorem clean_constructMsg : ∀ opts : List PreludeOption, AllOptions OptionInfo.Wide opts →
    ∀ need context, CleanTexts (constructOptionMsg need context opts)
  | [], _, _, _ => by
    rw [constructOptionMsg]
    nofun
  | opt :: opts, hw, need, context => by
    rw [constructOptionMsg]
    exact (clean_constructOption opt hw.1 need context).append
      (clean_constructMsg opts hw.2 need context)

end

end

/-- The options come back under the option that the message begins with. -/
def CameBack (opts : List PreludeOption) (r : Except ErrorCode Reply) : Prop :=
  ∃ reply root node, r = .ok reply ∧ reply.type = some .list ∧ reply.value = .options root ∧
    root.optlist = [node] ∧ SameOptions opts node.optlist

section

variable {chunks rest : List OptionChunk} {reply reply' : Reply} {tag : UInt8} {buf : List UInt8}
  {opt : PreludeOption}

theorem recvReply_list : preludeOptionRecvReply ((msgOptionList, buf) :: rest) reply =
    match readOptions rest newOption with
    | (.error e, _, _) => .error e
    | (.ok (), rest', opt) =>
      preludeOptionRecvReply rest' { reply with type := some .list, value := .options opt } := by
  rw [preludeOptionRecvReply, if_pos rfl, readOptions]
  rcases readOptionList rest newOption with ⟨⟨_ | _, rest', opt⟩, hle⟩ <;> rfl

theorem recvReply_field (h : tag ≠ msgOptionList) :
    preludeOptionRecvReply ((tag, buf) :: rest) reply =
      match readReplyField tag buf reply with
      | .error e => .error e
      | .ok reply => preludeOptionRecvReply rest reply := by
  cases hr : readReplyField tag buf reply <;> rw [preludeOptionRecvReply, if_neg h, hr]

theorem readReplyField_options (h : readReplyField tag buf reply = .ok reply')
    (ho : reply'.value = .options opt) : reply.value = .options opt := by
  have hmap {α : Type} {x : Except ErrorCode α} {f : α → Reply} (hx : x.map f = .ok reply') :
      ∃ a, f a = reply' := by
    cases x with
    | error e => cases hx
    | ok a => exact ⟨a, Except.ok.inj hx⟩
  unfold readReplyField at h
  split_ifs at h
  · obtain ⟨a, rfl⟩ := hmap h
    exact ho
  · obtain ⟨a, rfl⟩ := hmap h
    cases ho
  · cases h
    cases ho
  · obtain ⟨a, rfl⟩ := hmap h
    cases ho
  · cases h
    exact ho
  · cases h
    exact ho

theorem named_of_recvReply (n : ℕ) : ∀ {chunks : List OptionChunk} {reply : Reply},
    chunks.length ≤ n → CleanTexts chunks →
      (∀ o, reply.value = .options o → o.All OptionInfo.Named) →
      preludeOptionRecvReply chunks reply = .ok reply' →
      ∀ o, reply'.value = .options o → o.All OptionInfo.Named := by
  induction n with
  | zero =>
    intro chunks reply hlen _ hr h
    obtain rfl := List.length_eq_zero_iff.mp (Nat.le_zero.mp hlen)
    rw [preludeOptionRecvReply] at h
    cases h
    exact hr
  | succ n ih =>
    rintro (_ | ⟨⟨tag, buf⟩, rest⟩) reply hlen hc hr h
    · rw [preludeOptionRecvReply] at h
      cases h
      exact hr
    · rw [List.length_cons, Nat.add_le_add_iff_right] at hlen
      by_cases htag : tag = msgOptionList
      · subst htag
        rw [recvReply_list] at h
        obtain ⟨hnamed, hsuffix⟩ := named_of_readOptions _ le_rfl hc.tail.2
          named_newOption
        rcases hread : readOptions rest newOption with ⟨_ | _, rest', opt⟩
        · rw [hread] at h
          cases h
        · rw [hread] at h hnamed hsuffix
          refine ih (hsuffix.length_le.trans hlen) (fun c hc' => hc.tail.2 c (hsuffix.subset hc'))
            ?_ h
          rintro _ ⟨⟩
          exact hnamed
      · rw [recvReply_field htag] at h
        cases hf : readReplyField tag buf reply with
        | error e =>
          rw [hf] at h
          cases h
        | ok r =>
          rw [hf] at h
          exact ih hlen hc.tail.2 (fun o ho => hr o (readReplyField_options hf ho)) h

end

theorem named_of_cameBack {context : Bool} {root : PreludeOption}
    (h : AllOptions OptionInfo.Wide root.optlist)
    (hback : CameBack root.optlist (preludeOptionRecvReply (preludeOptionWideSendMsg context root)
      ⟨none, none, none, .nothing⟩)) : AllOptions OptionInfo.Named root.optlist := by
  obtain ⟨reply, top, node, hr, -, hv, hnode, hsame⟩ := hback
  have hclean : CleanTexts (preludeOptionWideSendMsg context root) :=
    CleanTexts.append
      (by simp [CleanTexts, msgOptionList, msgOptionStart, msgOptionName, msgOptionDesc,
        msgOptionValue])
      (clean_constructMsg root.optlist h false context)
  have hnamed := named_of_recvReply _ le_rfl hclean (fun _ ho => by cases ho) hr top hv
  obtain ⟨info, optlist⟩ := top
  obtain rfl : optlist = [node] := hnode
  obtain ⟨info', optlist'⟩ := node
  exact namedOptions_of_same _ _ hsame hnamed.2.1.2

/-- A tree of wide options comes back from its message just if no name, no description and no value
in it is empty. -/
theorem option_list_round_trip_iff (context : Bool) (root : PreludeOption)
    (h : AllOptions OptionInfo.Wide root.optlist) :
    CameBack root.optlist (preludeOptionRecvReply (preludeOptionWideSendMsg context root)
      ⟨none, none, none, .nothing⟩) ↔ AllOptions OptionInfo.Named root.optlist := by
  refine ⟨named_of_cameBack h, ?_⟩
  intro hn
  have hread := @readOptions_optlist context root.optlist newOption h hn []
  rw [List.append_nil, readOptions_nil] at hread
  refine ⟨⟨some .list, none, none, .options (newOption.addTail
    (.mk newOption.info (receivedList root.optlist)))⟩, _, _, ?_, rfl, rfl, rfl,
    sameOptions_received root.optlist⟩
  rw [preludeOptionWideSendMsg, List.cons_append, recvReply_list, List.cons_append,
    readOptions_start, List.nil_append, hread, readOptions_nil]
  dsimp only
  rw [preludeOptionRecvReply]
  rfl

def describedOption (description value : List UInt8) (optlist : List PreludeOption) :
    PreludeOption :=
  .mk ⟨some (ascii "opt"), 0, optionTypeWide, argumentNone, 1, some description, some value⟩ optlist

theorem wide_describedOption {description value : List UInt8} (hd : 0 ∉ description)
    (hv : 0 ∉ value) {optlist : List PreludeOption} (ho : AllOptions OptionInfo.Wide optlist) :
    (describedOption description value optlist).All OptionInfo.Wide := by
  have hwide : optionTypeWide &&& optionTypeWide ≠ 0 ∧
      optionTypeWide &&& optionTypeContext = 0 := by decide
  refine ⟨⟨hwide.1, hwide.2, ⟨_, rfl, by decide⟩, ?_, ?_⟩, ho⟩
  · rintro _ ⟨⟩
    exact hd
  · rintro _ ⟨⟩
    exact hv

def nestedOption : PreludeOption :=
  describedOption (ascii "text") (ascii "1") [describedOption (ascii "in") (ascii "2") []]

theorem option_list_round_trip_nested : CameBack [nestedOption]
    (preludeOptionRecvReply
      (preludeOptionWideSendMsg false (.mk newOption.info [nestedOption]))
      ⟨none, none, none, .nothing⟩) := by
  have hinner : AllOptions OptionInfo.Wide [describedOption (ascii "in") (ascii "2") []] :=
    ⟨wide_describedOption (by decide) (by decide) trivial, trivial⟩
  have hwide : AllOptions OptionInfo.Wide [nestedOption] :=
    ⟨wide_describedOption (by decide) (by decide) hinner, trivial⟩
  refine (option_list_round_trip_iff false (.mk newOption.info [nestedOption]) hwide).mpr ?_
  exact ⟨⟨⟨by decide, by decide, by decide⟩,
    ⟨⟨by decide, by decide, by decide⟩, trivial⟩, trivial⟩, trivial⟩

/-- An option with an empty description does not come back as it was. -/
theorem option_list_empty_description : ¬ CameBack [describedOption [] (ascii "1") []]
    (preludeOptionRecvReply
      (preludeOptionWideSendMsg false (.mk newOption.info [describedOption [] (ascii "1") []]))
      ⟨none, none, none, .nothing⟩) := by
  intro hback
  have hwide : AllOptions OptionInfo.Wide [describedOption [] (ascii "1") []] :=
    ⟨wide_describedOption (by decide) (by decide) trivial, trivial⟩
  have hnamed := @named_of_cameBack false (.mk newOption.info [describedOption [] (ascii "1") []])
    hwide hback
  exact hnamed.1.1.description rfl

end LibPrelude
