import LibPrelude.Common.Multiline

/-! # Logical lines

Where a line is cut, both of its pieces have to look to the reader like what they are: the first
must not seem to end or to go on, and the second must not begin with a sign for comments. Then the
lines that are read are those of the whole text.
-/

namespace LibPrelude

/-- Where in a line the reader is: at its start, behind a line that goes on or not, inside of a
comment, inside of another line, or between a backslash and the end of its line. -/
inductive ReadMode where
  | start (pending : Bool)
  | comment (pending : Bool)
  | mid
  | await

def ReadMode.IsOpen : ReadMode → Prop
  | start _ => True
  | mid => True
  | _ => False

def EndsLine (piece rest : List UInt8) : Prop := piece.getLast? = some 10 ∨ rest = []

instance (piece rest : List UInt8) : Decidable (EndsLine piece rest) :=
  inferInstanceAs (Decidable (_ ∨ _))

/-- A piece that is passed over as the missing end of a line. -/
def Missing (missEol : Bool) (piece : List UInt8) : Prop :=
  missEol ∧ hasEol piece ∧ (pieceCore piece).length - 1 = 0

/-- The mode behind a piece that is passed over. -/
def ReadMode.after (mode : ReadMode) (pending : Bool) (piece rest : List UInt8) : ReadMode :=
  if EndsLine piece rest then .start pending else mode

/-- The pieces that a text is read by are harmless: no comment is cut but where each of its pieces
is passed over, no other line is cut behind a backslash or an end of line unless only the end of
the line is missing, no piece of it begins with a sign for comments, and no line goes on at the
end of the text. -/
inductive Harmless (size : ℕ) : ReadMode → ℕ → Bool → List UInt8 → Prop
  | nothing {room : ℕ} {miss : Bool} : Harmless size (.start false) room miss []
  | end_mid {room : ℕ} {miss : Bool} : Harmless size .mid room miss []
  | comment {pending miss : Bool} {room : ℕ} {text piece rest : List UInt8} :
      fgets room text = some (piece, rest) → isComment piece →
      Harmless size (.after (.comment pending) pending piece rest) room miss rest →
      Harmless size (.start pending) room miss text
  | comment_more {pending miss : Bool} {room : ℕ} {text piece rest : List UInt8} :
      fgets room text = some (piece, rest) → isComment piece ∨ Missing miss piece →
      Harmless size (.after (.comment pending) pending piece rest) room miss rest →
      Harmless size (.comment pending) room miss text
  | line {mode : ReadMode} {miss : Bool} {room : ℕ} {text piece rest : List UInt8} :
      mode.IsOpen → fgets room text = some (piece, rest) → EndsLine piece rest →
      ¬ isComment piece → ¬ Missing miss piece → ¬ isContinued piece →
      Harmless size (.start false) size false rest → Harmless size mode room miss text
  | continued {mode : ReadMode} {miss : Bool} {room : ℕ} {text piece rest : List UInt8} :
      mode.IsOpen → fgets room text = some (piece, rest) → ¬ isComment piece →
      ¬ Missing miss piece → isContinued piece →
      Harmless size (.after .await true piece rest) (room - ((pieceCore piece).length - 1))
        (miss || !hasEol piece) rest → Harmless size mode room miss text
  | lone {miss : Bool} {room : ℕ} {text piece rest : List UInt8} :
      fgets room text = some (piece, rest) → Missing miss piece → isContinued piece →
      Harmless size (.after .await true piece rest) room miss rest →
      Harmless size (.start true) room miss text
  | cut {mode : ReadMode} {miss : Bool} {room : ℕ} {text piece rest : List UInt8} :
      mode.IsOpen → fgets room text = some (piece, rest) → ¬ EndsLine piece rest →
      ¬ isComment piece → ¬ hasEol piece → ¬ isContinued piece →
      Harmless size .mid size false rest → Harmless size mode room miss text
  | newline {miss : Bool} {room : ℕ} {text piece rest : List UInt8} :
      fgets room text = some (piece, rest) → Missing miss piece → pieceCore piece = [] →
      Harmless size (.after .await true piece rest) room miss rest →
      Harmless size .await room miss text

section Pieces

variable {part q piece rest text x w : List UInt8} {b : UInt8}

theorem pieceCore_eq_nil : pieceCore q = [] ↔ ∀ b ∈ q, isSpace b := List.rdropWhile_eq_nil_iff

theorem core_append_of_blank (h : pieceCore q = []) : pieceCore (part ++ q) = pieceCore part ∧
    (part ++ q).rtakeWhile isSpace = part.rtakeWhile isSpace ++ q := by
  have hrev (b : UInt8) (hb : b ∈ q.reverse) : isSpace b :=
    pieceCore_eq_nil.mp h b (List.mem_reverse.mp hb)
  constructor
  · rw [pieceCore, List.rdropWhile, List.reverse_append, List.dropWhile_append_of_pos hrev]
    rfl
  · rw [List.rtakeWhile, List.reverse_append, List.takeWhile_append_of_pos hrev,
      List.reverse_append, List.reverse_reverse]
    rfl

theorem core_shape (hb : ¬ isSpace b) (hw : pieceCore w = []) :
    pieceCore (x ++ [b] ++ w) = x ++ [b] ∧ (x ++ [b] ++ w).rtakeWhile isSpace = w := by
  obtain ⟨hcore, hblanks⟩ := @core_append_of_blank (x ++ [b]) w hw
  rw [hcore, hblanks, List.rtakeWhile_concat_neg _ _ _ hb, List.nil_append]
  exact ⟨List.rdropWhile_concat_neg _ _ _ hb, rfl⟩

theorem piece_cases (q : List UInt8) : pieceCore q = [] ∨
    ∃ x b w, q = x ++ [b] ++ w ∧ ¬ isSpace b ∧ pieceCore w = [] := by
  by_cases hnil : pieceCore q = []
  · exact .inl hnil
  · have hsplit : pieceCore q ++ q.rtakeWhile isSpace = q := List.rdropWhile_append_rtakeWhile
    have hlast : ¬ isSpace ((pieceCore q).getLast hnil) := List.rdropWhile_last_not isSpace q hnil
    refine .inr ⟨(pieceCore q).dropLast, (pieceCore q).getLast hnil, q.rtakeWhile isSpace, ?_,
      hlast, pieceCore_eq_nil.mpr fun b hb => List.mem_rtakeWhile_imp hb⟩
    rw [List.dropLast_append_getLast, hsplit]

theorem core_append_of_ne (h : pieceCore q ≠ []) : pieceCore (part ++ q) = part ++ pieceCore q ∧
    (part ++ q).rtakeWhile isSpace = q.rtakeWhile isSpace := by
  rcases piece_cases q with hq | ⟨x, b, w, rfl, hb, hw⟩
  · exact absurd hq h
  · obtain ⟨hcore, hblanks⟩ := core_shape (x := x) hb hw
    obtain ⟨hcore', hblanks'⟩ := core_shape (x := part ++ x) hb hw
    rw [hcore, hblanks, ← List.append_assoc, ← List.append_assoc, hcore', hblanks',
      List.append_assoc]
    exact ⟨rfl, rfl⟩

theorem blanks_of_core (h : pieceCore q = []) : q.rtakeWhile isSpace = q :=
  List.rtakeWhile_eq_self_iff.mpr (pieceCore_eq_nil.mp h)

theorem hasEol_append (h : ¬ hasEol part) : hasEol (part ++ q) = hasEol q := by
  rw [hasEol, Bool.not_eq_true] at h
  rw [hasEol, hasEol]
  by_cases hq : pieceCore q = []
  · rw [(core_append_of_blank hq).2, List.any_append, h, Bool.false_or, blanks_of_core hq]
  · rw [(core_append_of_ne hq).2]

/-- A piece without an end of line is a text of its own. -/
theorem lineText_append (h : ¬ hasEol part) : lineText (part ++ q) = part ++ lineText q := by
  have hsplit : pieceCore part ++ part.rtakeWhile isSpace = part :=
    List.rdropWhile_append_rtakeWhile
  rw [lineText, lineText]
  by_cases hq : pieceCore q = []
  · obtain ⟨hcore, hblanks⟩ := @core_append_of_blank part q hq
    have hno (b : UInt8) (hb : b ∈ part.rtakeWhile isSpace) : decide (¬ isEol b = true) = true :=
      decide_eq_true fun heol => h (List.any_eq_true.mpr ⟨b, hb, heol⟩)
    rw [hcore, hblanks, hq, blanks_of_core hq, List.takeWhile_append_of_pos hno,
      ← List.append_assoc, hsplit, List.nil_append]
  · obtain ⟨hcore, hblanks⟩ := @core_append_of_ne part q hq
    rw [hcore, hblanks, List.append_assoc]

theorem lineText_eq (h : ¬ hasEol part) : lineText part = part := by
  have happ := lineText_append (q := []) h
  rwa [List.append_nil, show lineText [] = [] from rfl, List.append_nil] at happ

theorem isContinued_append (h : ¬ isContinued part) :
    isContinued (part ++ q) = isContinued q := by
  rw [isContinued, Bool.not_eq_true] at h
  rw [isContinued, isContinued]
  by_cases hq : pieceCore q = []
  · rw [(core_append_of_blank hq).1, h, hq]
    rfl
  · rw [(core_append_of_ne hq).1, List.getLast?_append_of_ne_nil _ hq]

theorem core_of_continued (h : isContinued q) : pieceCore q ≠ [] := by
  intro hnil
  rw [isContinued, hnil] at h
  cases h

theorem isComment_append (x w : List UInt8) :
    isComment (x ++ w) = if pieceCore x = [] then isComment w else isComment x := by
  rw [isComment, isComment, isComment]
  split
  next h => rw [List.dropWhile_append_of_pos (pieceCore_eq_nil.mp h)]
  next h =>
    have hne : x.dropWhile isSpace ≠ [] := fun hnil =>
      h (pieceCore_eq_nil.mpr (List.dropWhile_eq_nil_iff.mp hnil))
    rw [List.dropWhile_append, if_neg (by simpa using hne), List.head?_append_of_ne_nil _ hne]

theorem isComment_of_blank (h : pieceCore q = []) : isComment q = false := by
  rw [isComment, List.dropWhile_eq_nil_iff.mpr (pieceCore_eq_nil.mp h)]
  rfl

theorem isComment_lineText (piece : List UInt8) : isComment (lineText piece) = isComment piece := by
  have hsplit : pieceCore piece ++ piece.rtakeWhile isSpace = piece :=
    List.rdropWhile_append_rtakeWhile
  by_cases h : pieceCore piece = []
  · have hblank : pieceCore (lineText piece) = [] := by
      rw [lineText, h, List.nil_append, pieceCore_eq_nil]
      exact fun b hb => List.mem_rtakeWhile_imp ((List.takeWhile_sublist _).mem hb)
    rw [isComment_of_blank hblank, isComment_of_blank h]
  · have hcore : pieceCore (pieceCore piece) ≠ [] := by
      rwa [pieceCore, pieceCore, List.rdropWhile_idempotent]
    rw [lineText, isComment_append, if_neg hcore]
    conv_rhs => rw [← hsplit, isComment_append, if_neg hcore]

end Pieces

section Lines

variable {part p q rest text : List UInt8} {pending : Option (List UInt8)}

theorem firstLine_append_free (h : 10 ∉ part) :
    firstLine (part ++ text) = part ++ firstLine text := by
  have hall (b : UInt8) (hb : b ∈ part) : decide (b ≠ 10) = true :=
    decide_eq_true (ne_of_mem_of_not_mem hb h)
  rw [firstLine, firstLine, List.takeWhile_append_of_pos hall, List.dropWhile_append_of_pos hall,
    List.append_assoc]

theorem firstLine_append_whole (hfree : 10 ∉ p.dropLast) (h : EndsLine p rest) :
    firstLine (p ++ rest) = p := by
  by_cases hlast : p.getLast? = some 10
  · obtain ⟨p, rfl⟩ := List.getLast?_eq_some_iff.mp hlast
    rw [List.dropLast_concat] at hfree
    rw [List.append_assoc, firstLine_append_free hfree]
    rfl
  · rw [h.resolve_left hlast, firstLine_append_free (not_mem_of_dropLast hfree hlast)]
    exact List.append_nil p

theorem logicalLines_line (hne : p ≠ []) (hp : firstLine (p ++ rest) = p) :
    logicalLines pending (p ++ rest) =
      if isComment p then logicalLines pending rest
      else if isContinued p then
        logicalLines (some (pending.getD [] ++ (pieceCore p).dropLast)) rest
      else (pending.getD [] ++ lineText p) :: logicalLines none rest := by
  rw [logicalLines, dif_neg (by simp [hne]), hp]
  dsimp only
  rw [List.drop_left, isComment_lineText]

theorem logicalLines_nil : logicalLines pending [] = pending.toList := by
  rw [logicalLines, dif_pos rfl]

end Lines

/-- What is left of a call of the reader, behind the lines that were cut off. -/
def settle (size : ℕ) (hsize : 2 ≤ size) (out : List UInt8) (r : LineRead) : LineRead :=
  match r.ret with
  | .ok => { r with text := out ++ r.text }
  | .tooSmall => readCalls size hsize (out ++ r.text) r.line r.rest
  | .eof => { r with
      ret := if out = [] then .eof else .ok
      text := out }

def gather (size : ℕ) (hsize : 2 ≤ size) (r : LineRead) : List (List UInt8) :=
  match r.ret with
  | .ok => r.text :: readLines size hsize r.line r.rest
  | _ => []

section Reading

variable {size : ℕ} {hsize : 2 ≤ size} {out rest : List UInt8} {line : ℕ}

theorem readCalls_eq : readCalls size hsize out line rest =
    settle size hsize out (preludeReadMultiline line size rest) := by
  rw [settle]
  split
  next h => exact readCalls_ok h
  next h => exact readCalls_tooSmall h
  next h => exact readCalls_eof h

theorem readLines_eq : readLines size hsize line rest =
    gather size hsize (settle size hsize [] (preludeReadMultiline line size rest)) := by
  rw [← readCalls_eq, ← preludeReadMultiline2, readLines, gather]
  split
  next h => rw [h]
  next h =>
    split
    next h' => exact absurd h' h
    next => rfl

theorem readLines_nil : readLines size hsize line [] = [] := by
  rw [readLines_eq, preludeReadMultiline, readPieces_nil hsize]
  rfl

end Reading

/-- A piece of a line that does not end it and is no comment so far. -/
structure OpenPart (part : List UInt8) : Prop where
  free : 10 ∉ part
  plain : ¬ isComment part
  no_eol : ¬ hasEol part
  not_continued : ¬ isContinued part

section Steps

variable (size : ℕ) (hsize : 2 ≤ size)

/-- Behind a piece of a line the lines that are read are those of the line and the text. -/
def ReadsOpen (room : ℕ) (miss : Bool) (text : List UInt8) : Prop :=
  ∀ line out acc cur pending part, OpenPart part → out ++ acc = pending.getD [] ++ part →
    gather size hsize (settle size hsize out (readPieces line room acc cur false miss text)) =
      logicalLines pending (part ++ text)

/-- What is read from a mode on are the lines of the text. -/
def Resumes : ReadMode → ℕ → Bool → List UInt8 → Prop
  | .start b, room, miss, text => ∀ line out acc cur (pending : Option (List UInt8)),
      pending.isSome = b → out ++ acc = pending.getD [] → (b = false → out = []) →
      gather size hsize (settle size hsize out (readPieces line room acc cur false miss text)) =
        logicalLines pending text
  | .comment b, room, miss, text => ∀ line out acc cur (pending : Option (List UInt8)),
      pending.isSome = b → out ++ acc = pending.getD [] → (b = false → out = []) →
      gather size hsize (settle size hsize out (readPieces line room acc cur false miss text)) =
        logicalLines pending (text.drop (firstLine text).length)
  | .mid, room, miss, text => ∀ line out cur pending part, OpenPart part → part ≠ [] →
      out = pending.getD [] ++ part →
      gather size hsize (settle size hsize out (readPieces line room [] cur false miss text)) =
        logicalLines pending (part ++ text)
  | .await, room, miss, text => ∀ line out acc cur pending part, 10 ∉ part → ¬ isComment part →
      isContinued part →
      out ++ acc = pending.getD [] ++ (pieceCore part).dropLast →
      gather size hsize (settle size hsize out (readPieces line room acc cur false miss text)) =
        logicalLines pending (part ++ text)

variable {size} {hsize} {room line : ℕ} {miss : Bool} {text q rest part out acc cur : List UInt8}
  {pending : Option (List UInt8)} {mode : ReadMode}

theorem openPart_nil : OpenPart [] := ⟨nofun, nofun, nofun, nofun⟩

theorem ReadsOpen.resumes (h : ReadsOpen size hsize room miss text) (hm : mode.IsOpen) :
    Resumes size hsize mode room miss text := by
  cases mode with
  | start b =>
    intro line out acc cur pending _ hout _
    exact h line out acc cur pending [] openPart_nil (by rw [hout, List.append_nil])
  | mid =>
    intro line out cur pending part hpart _ hout
    exact h line out [] cur pending part hpart (by rw [hout, List.append_nil])
  | comment b => cases hm
  | await => cases hm

theorem OpenPart.not_comment (hp : OpenPart part) (h : ¬ isComment q) :
    ¬ isComment (part ++ q) := by
  rw [isComment_append]
  split
  · exact h
  · exact hp.plain

theorem not_missing_or (hm : ¬ Missing miss q) (hc : ¬ isComment q) :
    ¬ (miss ∧ hasEol q ∧ (pieceCore q).length - 1 = 0 ∨ isComment (lineText q)) := by
  rw [isComment_lineText]
  exact not_or.mpr ⟨hm, hc⟩

theorem EndsLine.firstLine (hroom : 2 ≤ room) (hf : fgets room text = some (q, rest))
    (hw : EndsLine q rest) (hp : 10 ∉ part) :
    part ++ text = part ++ q ++ rest ∧ LibPrelude.firstLine (part ++ q ++ rest) = part ++ q ∧
      part ++ q ≠ [] := by
  have hpiece := fgets_some hroom hf
  rw [hpiece.text_eq, List.append_assoc, firstLine_append_free hp,
    firstLine_append_whole hpiece.free hw]
  exact ⟨rfl, rfl, List.append_ne_nil_of_right_ne_nil part hpiece.ne_nil⟩

theorem hasEol_of_whole (h : q.getLast? = some 10) : hasEol q := by
  obtain ⟨x, rfl⟩ := List.getLast?_eq_some_iff.mp h
  rw [hasEol, List.rtakeWhile_concat_pos _ _ _ (by decide), List.any_append]
  simp [isEol]

theorem room_sub (hpiece : LinePiece room text q rest) :
    2 ≤ room - ((pieceCore q).length - 1) := by
  have hcore : (pieceCore q).length ≤ q.length := (List.rdropWhile_prefix isSpace q).length_le
  have hpos := List.length_pos_iff.mpr hpiece.ne_nil
  have hle := hpiece.le
  omega

theorem reads_line (hroom : 2 ≤ room) (hf : fgets room text = some (q, rest)) (hw : EndsLine q rest)
    (hc : ¬ isComment q) (hm : ¬ Missing miss q) (hcont : ¬ isContinued q)
    (ih : Resumes size hsize (.start false) size false rest) :
    ReadsOpen size hsize room miss text := by
  intro line out acc cur pending part hpart hout
  have hpiece := fgets_some hroom hf
  obtain ⟨htext, hfirst, hne⟩ := hw.firstLine hroom hf hpart.free
  rw [htext, logicalLines_line hne hfirst, if_neg (hpart.not_comment hc),
    isContinued_append hpart.not_continued, if_neg hcont, lineText_append hpart.no_eol,
    readPieces_piece hroom hf]
  dsimp only
  rw [if_neg (not_missing_or hm hc)]
  have hlines (line : ℕ) : readLines size hsize line rest = logicalLines none rest := by
    rw [readLines_eq]
    exact ih line [] [] [] none rfl rfl fun _ => rfl
  by_cases heol : hasEol q
  · rw [if_pos ⟨hcont, heol⟩]
    dsimp only [settle, gather]
    rw [hlines, ← List.append_assoc, hout, List.append_assoc]
  have hrest : rest = [] := hw.resolve_left fun h => heol (hasEol_of_whole h)
  subst hrest
  have hgive (line : ℕ) : gather size hsize ⟨.ok, out ++ acc ++ q, line, []⟩ =
      [pending.getD [] ++ (part ++ q)] := by
    rw [gather, readLines_nil, hout, List.append_assoc]
  have hne' : out ++ (acc ++ q) ≠ [] := by
    rw [← List.append_assoc]
    exact List.append_ne_nil_of_right_ne_nil _ hpiece.ne_nil
  rw [if_neg fun h => heol h.2, logicalLines_nil, lineText_eq heol, Option.toList_none,
    ← hgive line]
  by_cases hlen : q.length = room - 1
  · rw [if_pos ⟨hcont, hlen⟩]
    dsimp only [settle]
    rw [readCalls_eq, preludeReadMultiline, readPieces_nil hsize]
    simp only [settle, if_neg heol, if_neg hne', Bool.false_eq_true, if_false]
    rw [← List.append_assoc]
  · rw [if_neg fun h => hlen h.2, readPieces_nil (room_sub hpiece)]
    have hdata : (false || !isContinued q) = true := by simpa using hcont
    rw [hdata, if_pos rfl, List.append_assoc, List.take_append_drop, if_neg heol]
    simp only [settle]
    rw [← List.append_assoc]

theorem take_lineText (q : List UInt8) :
    (lineText q).take ((pieceCore q).length - 1) = (pieceCore q).dropLast := by
  rw [lineText, List.take_append_of_le_length (by omega), List.dropLast_eq_take]

theorem core_append_dropLast (hcont : isContinued q) :
    (pieceCore (part ++ q)).dropLast = part ++ (pieceCore q).dropLast := by
  rw [(core_append_of_ne (core_of_continued hcont)).1,
    List.dropLast_append_of_ne_nil (core_of_continued hcont)]

theorem readPieces_continued (hroom : 2 ≤ room) (hf : fgets room text = some (q, rest))
    (hc : ¬ isComment q) (hm : ¬ Missing miss q) (hcont : isContinued q) :
    readPieces line room acc cur false miss text =
      readPieces (if hasEol q then line + 1 else line) (room - ((pieceCore q).length - 1))
        (acc ++ (pieceCore q).dropLast) ((lineText q).drop ((pieceCore q).length - 1)) false
        (miss || !hasEol q) rest := by
  rw [readPieces_piece hroom hf]
  dsimp only
  rw [if_neg (not_missing_or hm hc), if_neg fun h => h.1 hcont, if_neg fun h => h.1 hcont,
    take_lineText, hcont]
  rfl

/-- Behind a piece that goes on the line ends, or its end is missing. -/
theorem reads_after (part : List UInt8) (hroom : 2 ≤ room)
    (hf : fgets room text = some (q, rest)) {room' : ℕ}
    (ih : Resumes size hsize (.after .await true q rest) room' miss rest) (hfree : 10 ∉ part)
    (hc : ¬ isComment (part ++ q)) (hcont : isContinued (part ++ q))
    (hout : out ++ acc = pending.getD [] ++ (pieceCore (part ++ q)).dropLast) :
    gather size hsize (settle size hsize out (readPieces line room' acc cur false miss rest)) =
      logicalLines pending (part ++ text) := by
  have hpiece := fgets_some hroom hf
  rw [ReadMode.after] at ih
  split at ih
  next hw =>
    obtain ⟨htext, hfirst, hne⟩ := hw.firstLine hroom hf hfree
    rw [htext, logicalLines_line hne hfirst, if_neg hc, if_pos hcont]
    exact ih line out acc cur (some _) rfl hout nofun
  next hw =>
    have hfree' : 10 ∉ q := not_mem_of_dropLast hpiece.free fun h => hw (.inl h)
    rw [hpiece.text_eq, ← List.append_assoc]
    exact ih line out acc cur pending (part ++ q)
      (fun hm => (List.mem_append.mp hm).elim hfree hfree') hc hcont hout

theorem reads_continued (hroom : 2 ≤ room) (hf : fgets room text = some (q, rest))
    (hc : ¬ isComment q) (hm : ¬ Missing miss q) (hcont : isContinued q)
    (ih : Resumes size hsize (.after .await true q rest) (room - ((pieceCore q).length - 1))
      (miss || !hasEol q) rest) : ReadsOpen size hsize room miss text := by
  intro line out acc cur pending part hpart hout
  rw [readPieces_continued hroom hf hc hm hcont]
  refine reads_after part hroom hf ih hpart.free (hpart.not_comment hc) ?_ ?_
  · rwa [isContinued_append hpart.not_continued]
  · rw [core_append_dropLast hcont, ← List.append_assoc, hout, List.append_assoc]

theorem reads_cut (hroom : 2 ≤ room) (hf : fgets room text = some (q, rest))
    (hw : ¬ EndsLine q rest) (hc : ¬ isComment q) (heol : ¬ hasEol q) (hcont : ¬ isContinued q)
    (ih : Resumes size hsize .mid size false rest) : ReadsOpen size hsize room miss text := by
  intro line out acc cur pending part hpart hout
  have hpiece := fgets_some hroom hf
  obtain ⟨hlast, hrest⟩ := not_or.mp hw
  have hlen : q.length = room - 1 := (hpiece.ends.resolve_left hlast).resolve_right hrest
  have hfree : 10 ∉ q := not_mem_of_dropLast hpiece.free fun h => hw (.inl h)
  have hpart' : OpenPart (part ++ q) := by
    refine ⟨fun hm => (List.mem_append.mp hm).elim hpart.free hfree, hpart.not_comment hc, ?_, ?_⟩
    · rwa [hasEol_append hpart.no_eol]
    · rwa [isContinued_append hpart.not_continued]
  have hmiss : ¬ Missing miss q := fun h => heol h.2.1
  rw [readPieces_piece hroom hf]
  dsimp only
  rw [if_neg (not_missing_or hmiss hc), if_neg fun h => heol h.2, if_pos ⟨hcont, hlen⟩,
    lineText_eq heol, hpiece.text_eq, ← List.append_assoc]
  dsimp only [settle]
  rw [readCalls_eq, ← List.append_assoc, hout, List.append_assoc]
  exact ih _ _ [] pending (part ++ q) hpart'
    (List.append_ne_nil_of_right_ne_nil part hpiece.ne_nil) rfl

theorem reads_dropped (hroom : 2 ≤ room) (hf : fgets room text = some (q, rest))
    (h : isComment q ∨ Missing miss q) : readPieces line room acc cur false miss text =
      readPieces (if hasEol q then line + 1 else line) room acc (lineText q) false miss rest := by
  rw [readPieces_piece hroom hf]
  dsimp only
  rw [if_pos (by rw [isComment_lineText]; exact h.symm)]

theorem drop_firstLine (hroom : 2 ≤ room) (hf : fgets room text = some (q, rest)) :
    text.drop (firstLine text).length =
      if EndsLine q rest then rest else rest.drop (firstLine rest).length := by
  have hpiece := fgets_some hroom hf
  rw [hpiece.text_eq]
  split
  next hw => rw [firstLine_append_whole hpiece.free hw, List.drop_left]
  next hw =>
    have hfree : 10 ∉ q := not_mem_of_dropLast hpiece.free fun h => hw (.inl h)
    rw [firstLine_append_free hfree, List.length_append, ← List.drop_drop, List.drop_left]

theorem logicalLines_comment (hroom : 2 ≤ room) (hf : fgets room text = some (q, rest))
    (hc : isComment q) : logicalLines pending text = logicalLines pending
      (if EndsLine q rest then rest else rest.drop (firstLine rest).length) := by
  have hpiece := fgets_some hroom hf
  have hcore : pieceCore q ≠ [] := fun hnil => by
    rw [isComment_of_blank hnil] at hc
    cases hc
  have hne : text ≠ [] := by
    rw [hpiece.text_eq]
    exact List.append_ne_nil_of_left_ne_nil hpiece.ne_nil rest
  have hfirst : isComment (firstLine text) := by
    rw [hpiece.text_eq]
    by_cases hw : EndsLine q rest
    · rwa [firstLine_append_whole hpiece.free hw]
    · have hfree : 10 ∉ q := not_mem_of_dropLast hpiece.free fun h => hw (.inl h)
      rwa [firstLine_append_free hfree, isComment_append, if_neg hcore]
  rw [logicalLines, dif_neg hne]
  dsimp only
  rw [isComment_lineText, if_pos hfirst, drop_firstLine hroom hf]

theorem core_of_missing (hm : Missing miss q) (hcont : isContinued q) : pieceCore q = [92] := by
  have hlen := hm.2.2
  obtain ⟨x, hx⟩ := List.getLast?_eq_some_iff.mp (by simpa [isContinued] using hcont)
  rw [hx, List.length_append, List.length_singleton] at hlen
  rw [hx, List.length_eq_zero_iff.mp (by omega : x.length = 0)]
  rfl

theorem not_comment_of_core (h : pieceCore q = [92]) : ¬ isComment q := by
  have hsplit : pieceCore q ++ q.rtakeWhile isSpace = q := List.rdropWhile_append_rtakeWhile
  rw [← hsplit, h, isComment_append, if_neg (by decide)]
  decide

/-- From harmless pieces the lines of the text are read. -/
theorem Harmless.resumes (h : Harmless size mode room miss text) (hroom : 2 ≤ room) :
    Resumes size hsize mode room miss text := by
  induction h with
  | nothing =>
    intro line out acc cur pending hb _ hout
    obtain rfl := hout rfl
    obtain rfl : pending = none := Option.not_isSome_iff_eq_none.mp (by simp [hb])
    rw [readPieces_nil hroom, logicalLines_nil]
    rfl
  | end_mid =>
    intro line out cur pending part hpart hne hout
    have hline : firstLine (part ++ []) = part :=
      firstLine_append_whole (fun h => hpart.free (List.dropLast_subset _ h)) (.inr rfl)
    have hout' : out ≠ [] := by
      rw [hout]
      exact List.append_ne_nil_of_right_ne_nil _ hne
    rw [readPieces_nil hroom, logicalLines_line hne hline, if_neg hpart.plain,
      if_neg hpart.not_continued, logicalLines_nil, lineText_eq hpart.no_eol, ← hout]
    simp only [settle, gather, if_neg hout', Bool.false_eq_true, if_false, readLines_nil,
      Option.toList_none]
  | comment hf hc _ ih =>
    intro line out acc cur pending hb hout hnil
    have hih := ih hroom
    rw [reads_dropped hroom hf (.inl hc), logicalLines_comment hroom hf hc]
    rw [ReadMode.after] at hih
    split at hih
    next hw =>
      rw [if_pos hw]
      exact hih _ out acc _ pending hb hout hnil
    next hw =>
      rw [if_neg hw]
      exact hih _ out acc _ pending hb hout hnil
  | comment_more hf hc _ ih =>
    intro line out acc cur pending hb hout hnil
    have hih := ih hroom
    rw [reads_dropped hroom hf hc, drop_firstLine hroom hf]
    rw [ReadMode.after] at hih
    split at hih
    next hw =>
      rw [if_pos hw]
      exact hih _ out acc _ pending hb hout hnil
    next hw =>
      rw [if_neg hw]
      exact hih _ out acc _ pending hb hout hnil
  | line hm hf hw hc hmiss hcont _ ih =>
    exact (reads_line hroom hf hw hc hmiss hcont (ih hsize)).resumes hm
  | continued hm hf hc hmiss hcont _ ih =>
    exact (reads_continued hroom hf hc hmiss hcont
      (ih (room_sub (fgets_some hroom hf)))).resumes hm
  | lone hf hmiss hcont _ ih =>
    intro line out acc cur pending _ hout _
    have hcore := core_of_missing hmiss hcont
    rw [reads_dropped hroom hf (.inr hmiss)]
    refine reads_after [] hroom hf (ih hroom) nofun (not_comment_of_core hcore) hcont ?_
    rw [List.nil_append, hcore]
    simpa using hout
  | cut hm hf hw hc heol hcont _ ih =>
    exact (reads_cut hroom hf hw hc heol hcont (ih hsize)).resumes hm
  | newline hf hmiss hcore _ ih =>
    intro line out acc cur pending part hfree hplain hcont hout
    rw [reads_dropped hroom hf (.inr hmiss)]
    obtain ⟨hcore', -⟩ := core_append_of_blank hcore
    refine reads_after part hroom hf (ih hroom) hfree ?_ ?_ ?_
    · rwa [isComment_append, if_neg (core_of_continued hcont)]
    · rwa [isContinued, hcore']
    · rwa [hcore']

end Steps

/-- The lines that are read are those of the whole text where all pieces of it are harmless. -/
theorem readLines_of_harmless {size : ℕ} (hsize : 2 ≤ size) {text : List UInt8} (line : ℕ)
    (h : Harmless size (.start false) size false text) :
    readLines size hsize line text = logicalLines none text := by
  rw [readLines_eq]
  exact h.resumes hsize line [] [] [] none rfl rfl fun _ => rfl

/-- A comment, and a line that goes on and is cut in a buffer of eight bytes. -/
def cutText : List UInt8 := ascii "#c\na\\\nbcdefghi\n"

theorem readLines_cutText : readLines 8 (by decide) 0 cutText = logicalLines none cutText := by
  refine readLines_of_harmless (by decide) 0 (.comment rfl (by decide) ?_)
  refine .continued trivial rfl (by decide) (by simp [Missing]) (by decide) ?_
  refine .cut trivial rfl (by decide) (by decide) (by decide) (by decide) ?_
  exact .line trivial rfl (by decide) (by decide) (by simp [Missing]) (by decide) .nothing

theorem fgets_cut {size : ℕ} {piece rest : List UInt8} (hfree : 10 ∉ piece) (hne : piece ≠ [])
    (hlen : piece.length = size - 1) : fgets size (piece ++ rest) = some (piece, rest) := by
  have htake : (firstLine (piece ++ rest)).take (size - 1) = piece := by
    rw [firstLine_append_free hfree, ← hlen, List.take_left]
  rw [fgets, if_neg (List.append_ne_nil_of_left_ne_nil hne rest), htake, List.drop_left]

theorem readLines_comment (n : ℕ) (hsize : 2 ≤ n + 3) :
    readLines (n + 3) hsize 0 (35 :: List.replicate (n + 1) 120 ++ [97, 10]) = [[97]] ∧
      logicalLines none (35 :: List.replicate (n + 1) 120 ++ [97, 10]) = [] := by
  have hfree : 10 ∉ 35 :: List.replicate (n + 1) (120 : UInt8) := by simp
  have hfirst : fgets (n + 3) (35 :: List.replicate (n + 1) 120 ++ [97, 10]) =
      some (35 :: List.replicate (n + 1) 120, [97, 10]) :=
    fgets_cut hfree (List.cons_ne_nil _ _) (by simp)
  have hline : firstLine [97, 10] = [97, 10] := by decide
  have hsecond : fgets (n + 3) [97, 10] = some ([97, 10], []) := by
    rw [fgets, if_neg (by simp), hline, List.take_of_length_le (by simp)]
    rfl
  have hcomment : isComment (35 :: List.replicate (n + 1) 120) := rfl
  constructor
  · have hrest : Harmless (n + 3) (.start false) (n + 3) false [97, 10] :=
      .line trivial hsecond (by decide) (by decide) (by simp [Missing]) (by decide) .nothing
    rw [readLines_eq, preludeReadMultiline, reads_dropped hsize hfirst (.inl hcomment),
      hrest.resumes hsize _ [] [] _ none rfl rfl fun _ => rfl]
    have hone := @logicalLines_line [97, 10] [] none (by simp) hline
    rw [logicalLines_nil] at hone
    exact hone.trans (by decide)
  · have hcut : ¬ EndsLine (35 :: List.replicate (n + 1) 120) [97, 10] := by
      rintro (h | h)
      · exact hfree (List.mem_of_getLast? h)
      · cases h
    rw [logicalLines_comment hsize hfirst hcomment, if_neg hcut, hline]
    exact logicalLines_nil

/-- A comment that is longer than the buffer. -/
theorem not_readLines_commented :
    readLines 8192 (by decide) 0 (35 :: List.replicate 8190 120 ++ [97, 10]) ≠
      logicalLines none (35 :: List.replicate 8190 120 ++ [97, 10]) := by
  obtain ⟨hread, hlogical⟩ := readLines_comment 8189 (by decide)
  rw [hread, hlogical]
  nofun

end LibPrelude
