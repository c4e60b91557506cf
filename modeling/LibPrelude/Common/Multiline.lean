import LibPrelude.Common.Gets
import LibPrelude.Criteria.BrokenDownTime
import Mathlib.Data.List.DropRight

/-! # Reading lines that go on

A line that ends in a backslash goes on in the next one, and a line that begins with a sign for
comments is dropped. A line is read into a buffer by pieces, and what does not fit is read by
another call; this next piece is then looked at as if it were a line of its own.
-/

namespace LibPrelude

def isEol (b : UInt8) : Bool := b = 10 ∨ b = 13

/-- A piece up to its last character that is no blank. -/
def pieceCore (piece : List UInt8) : List UInt8 := piece.rdropWhile isSpace

def hasEol (piece : List UInt8) : Bool := (piece.rtakeWhile isSpace).any isEol

/-- A piece without its end of line. -/
def lineText (piece : List UInt8) : List UInt8 :=
  pieceCore piece ++ (piece.rtakeWhile isSpace).takeWhile fun b => ¬ isEol b

def isComment (text : List UInt8) : Bool := (text.dropWhile isSpace).head? = some 35

def isContinued (piece : List UInt8) : Bool := (pieceCore piece).getLast? = some 92

inductive ReadRet where
  | ok
  | eof
  | tooSmall
  deriving DecidableEq

/-- What a call returns, with the line counter and what is left of the text. -/
structure LineRead where
  ret : ReadRet
  text : List UInt8
  line : ℕ
  rest : List UInt8

/-- Read pieces into a buffer that is filled with `acc` and is followed by `size` bytes, which
begin with `cur`. -/
def readPieces (line size : ℕ) (acc cur : List UInt8) (hasData missEol : Bool)
    (rest : List UInt8) : LineRead :=
  if _hsize : size ≤ 1 then ⟨.tooSmall, acc ++ cur, line, rest⟩
  else
    match _h : fgets size rest with
    | none => ⟨if hasData then .ok else .eof, acc ++ cur, line, rest⟩
    | some (piece, rest) =>
      let i := (pieceCore piece).length - 1
      let buf := lineText piece
      let line := if hasEol piece then line + 1 else line
      if missEol ∧ hasEol piece ∧ i = 0 then readPieces line size acc buf hasData missEol rest
      else if isComment buf then readPieces line size acc buf hasData missEol rest
      else if ¬ isContinued piece ∧ hasEol piece then ⟨.ok, acc ++ buf, line, rest⟩
      else if ¬ isContinued piece ∧ piece.length = size - 1 then
        ⟨.tooSmall, acc ++ buf, line, rest⟩
      else
        readPieces line (size - i) (acc ++ buf.take i) (buf.drop i)
          (hasData || !isContinued piece) (missEol || !hasEol piece) rest
termination_by rest.length
decreasing_by all_goals exact (fgets_some (by omega) _h).rest_lt

def preludeReadMultiline (line size : ℕ) (rest : List UInt8) : LineRead :=
  readPieces line size [] [] false false rest

section

variable {line size : ℕ} {acc cur piece rest rest' : List UInt8} {hasData missEol : Bool}

theorem readPieces_piece (hsize : 2 ≤ size) (h : fgets size rest = some (piece, rest')) :
    readPieces line size acc cur hasData missEol rest =
      let i := (pieceCore piece).length - 1
      let line := if hasEol piece then line + 1 else line
      if missEol ∧ hasEol piece ∧ i = 0 ∨ isComment (lineText piece) then
        readPieces line size acc (lineText piece) hasData missEol rest'
      else if ¬ isContinued piece ∧ hasEol piece then
        ⟨.ok, acc ++ lineText piece, line, rest'⟩
      else if ¬ isContinued piece ∧ piece.length = size - 1 then
        ⟨.tooSmall, acc ++ lineText piece, line, rest'⟩
      else
        readPieces line (size - i) (acc ++ (lineText piece).take i) ((lineText piece).drop i)
          (hasData || !isContinued piece) (missEol || !hasEol piece) rest' := by
  rw [readPieces, dif_neg (by omega)]
  split
  next hf => cases h.symm.trans hf
  next piece' rest'' hf =>
    obtain ⟨rfl, rfl⟩ := Prod.mk.inj (Option.some.inj (h.symm.trans hf))
    dsimp only
    by_cases hdrop : missEol ∧ hasEol piece ∧ (pieceCore piece).length - 1 = 0
    · rw [if_pos hdrop, if_pos (Or.intro_left (isComment (lineText piece) = true) hdrop)]
    · rw [if_neg hdrop]
      by_cases hc : isComment (lineText piece)
      · rw [if_pos hc, if_pos (Or.intro_right (missEol = true ∧ _) hc)]
      · rw [if_neg hc, if_neg (not_or.mpr ⟨hdrop, hc⟩)]

theorem readPieces_nil (hsize : 2 ≤ size) : readPieces line size acc cur hasData missEol [] =
    ⟨if hasData then .ok else .eof, acc ++ cur, line, []⟩ := by
  rw [readPieces, dif_neg (by omega)]
  split
  · rfl
  next hf => cases (fgets_none.mpr rfl).symm.trans hf

theorem readPieces_le (line size : ℕ) (acc cur : List UInt8) (hasData missEol : Bool)
    (rest : List UInt8) :
    (readPieces line size acc cur hasData missEol rest).rest.length ≤ rest.length := by
  induction hn : rest.length using Nat.strong_induction_on generalizing line size acc cur hasData
    missEol rest with
  | _ n ih =>
    subst hn
    by_cases hsize : size ≤ 1
    · rw [readPieces, dif_pos hsize]
    cases h : fgets size rest with
    | none =>
      rw [fgets_none.mp h, readPieces_nil (by omega)]
    | some r =>
      have hlt := (fgets_some (by omega) h).rest_lt
      rw [readPieces_piece (by omega) h]
      dsimp only
      split
      · exact (ih _ hlt _ _ _ _ _ _ _ rfl).trans hlt.le
      split
      · exact hlt.le
      split
      · exact hlt.le
      · exact (ih _ hlt _ _ _ _ _ _ _ rfl).trans hlt.le

theorem preludeReadMultiline_lt (hsize : 2 ≤ size)
    (h : (preludeReadMultiline line size rest).ret ≠ .eof) :
    (preludeReadMultiline line size rest).rest.length < rest.length := by
  cases hf : fgets size rest with
  | none =>
    rw [preludeReadMultiline, fgets_none.mp hf, readPieces_nil hsize] at h
    exact absurd rfl h
  | some r =>
    have hlt := (fgets_some hsize hf).rest_lt
    rw [preludeReadMultiline, readPieces_piece hsize hf]
    dsimp only
    split
    · exact (readPieces_le ..).trans_lt hlt
    split
    · exact hlt
    split
    · exact hlt
    · exact (readPieces_le ..).trans_lt hlt

end

/-- Read a line into a string, by calls that each fill the buffer. -/
def readCalls (size : ℕ) (hsize : 2 ≤ size) (out : List UInt8) (line : ℕ) (rest : List UInt8) :
    LineRead :=
  match _h : (preludeReadMultiline line size rest).ret with
  | .ok => { preludeReadMultiline line size rest with
      text := out ++ (preludeReadMultiline line size rest).text }
  | .tooSmall => readCalls size hsize (out ++ (preludeReadMultiline line size rest).text)
      (preludeReadMultiline line size rest).line (preludeReadMultiline line size rest).rest
  | .eof => { preludeReadMultiline line size rest with
      ret := if out = [] then .eof else .ok
      text := out }
termination_by rest.length
decreasing_by exact preludeReadMultiline_lt hsize (by rw [_h]; nofun)

def preludeReadMultiline2 (size : ℕ) (hsize : 2 ≤ size) (line : ℕ) (rest : List UInt8) :
    LineRead := readCalls size hsize [] line rest

section

variable {line size : ℕ} {hsize : 2 ≤ size} {out rest : List UInt8}

theorem readCalls_ok (h : (preludeReadMultiline line size rest).ret = .ok) :
    readCalls size hsize out line rest = { preludeReadMultiline line size rest with
      text := out ++ (preludeReadMultiline line size rest).text } := by
  rw [readCalls]
  split
  · rfl
  next h' => cases h.symm.trans h'
  next h' => cases h.symm.trans h'

theorem readCalls_tooSmall (h : (preludeReadMultiline line size rest).ret = .tooSmall) :
    readCalls size hsize out line rest =
      readCalls size hsize (out ++ (preludeReadMultiline line size rest).text)
        (preludeReadMultiline line size rest).line (preludeReadMultiline line size rest).rest := by
  rw [readCalls]
  split
  next h' => cases h.symm.trans h'
  · rfl
  next h' => cases h.symm.trans h'

theorem readCalls_eof (h : (preludeReadMultiline line size rest).ret = .eof) :
    readCalls size hsize out line rest = { preludeReadMultiline line size rest with
      ret := if out = [] then .eof else .ok
      text := out } := by
  rw [readCalls]
  split
  next h' => cases h.symm.trans h'
  next h' => cases h.symm.trans h'
  · rfl

theorem readCalls_le (out : List UInt8) (line : ℕ) (rest : List UInt8) :
    (readCalls size hsize out line rest).rest.length ≤ rest.length := by
  induction out, line, rest using readCalls.induct size hsize with
  | case1 out line rest h =>
    rw [readCalls_ok h]
    exact readPieces_le ..
  | case2 out line rest h ih =>
    rw [readCalls_tooSmall h]
    exact ih.trans (readPieces_le ..)
  | case3 out line rest h =>
    rw [readCalls_eof h]
    exact readPieces_le ..

theorem preludeReadMultiline2_lt (h : (preludeReadMultiline2 size hsize line rest).ret = .ok) :
    (preludeReadMultiline2 size hsize line rest).rest.length < rest.length := by
  rw [preludeReadMultiline2] at h ⊢
  cases hr : (preludeReadMultiline line size rest).ret with
  | ok =>
    rw [readCalls_ok hr]
    exact preludeReadMultiline_lt hsize (by rw [hr]; nofun)
  | tooSmall =>
    rw [readCalls_tooSmall hr]
    exact (readCalls_le ..).trans_lt (preludeReadMultiline_lt hsize (by rw [hr]; nofun))
  | eof =>
    rw [readCalls_eof hr] at h
    cases h

end

/-- The lines that a file is read as, until a call does not succeed. -/
def readLines (size : ℕ) (hsize : 2 ≤ size) (line : ℕ) (text : List UInt8) : List (List UInt8) :=
  match _h : (preludeReadMultiline2 size hsize line text).ret with
  | .ok => (preludeReadMultiline2 size hsize line text).text ::
      readLines size hsize (preludeReadMultiline2 size hsize line text).line
        (preludeReadMultiline2 size hsize line text).rest
  | _ => []
termination_by text.length
decreasing_by exact preludeReadMultiline2_lt _h

/-- The logical lines of a text that is split at once, behind a line that goes on if there is
one. -/
def logicalLines (pending : Option (List UInt8)) (text : List UInt8) : List (List UInt8) :=
  if _h : text = [] then pending.toList
  else
    let p := firstLine text
    let rest := text.drop p.length
    if isComment (lineText p) then logicalLines pending rest
    else if isContinued p then
      logicalLines (some (pending.getD [] ++ (pieceCore p).dropLast)) rest
    else (pending.getD [] ++ lineText p) :: logicalLines none rest
termination_by text.length
decreasing_by
  all_goals
    have hpos := List.length_pos_iff.mpr (firstLine_ne_nil _h)
    have htext := List.length_pos_iff.mpr _h
    rw [List.length_drop]
    omega

end LibPrelude
