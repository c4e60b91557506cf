import LibPrelude.Message.Get
import LibPrelude.Options.Tree

/-! # Options in a message

The options are sent as a flat sequence of chunks, with marks where an option begins and ends. A
text of a chunk is an error unless it has a character before the null byte; then the reading of
the option ends, but not that of the option that encloses it, which goes on with the chunks left.
-/

namespace LibPrelude

open Bytes

/-- A chunk of a message, with its tag. -/
abbrev OptionChunk := UInt8 × List UInt8

def optionTypeWide : UInt32 := 0x04
def optionTypeContext : UInt32 := 0x08

def msgOptionTargetId : UInt8 := 0
def msgOptionList : UInt8 := 2
def msgOptionValue : UInt8 := 3
def msgOptionRequestId : UInt8 := 6
def msgOptionError : UInt8 := 7
def msgOptionStart : UInt8 := 8
def msgOptionEnd : UInt8 := 9
def msgOptionName : UInt8 := 10
def msgOptionDesc : UInt8 := 11
def msgOptionHasArg : UInt8 := 12
def msgOptionHelp : UInt8 := 13
def msgOptionInputValidation : UInt8 := 14
def msgOptionInputType : UInt8 := 15
def msgOptionType : UInt8 := 17

def uint32Write (data : UInt32) (tag : UInt8) : OptionChunk := (tag, beBytes 4 data.toNat)

def textWrite (text : List UInt8) (tag : UInt8) : OptionChunk := (tag, text ++ [0])

/-- The chunks of an option; its value is left out where a context is needed and there is none. -/
def sendOptionMsg (parentNeedContext context : Bool) (opt : OptionInfo) : List OptionChunk :=
  [(msgOptionStart, []), textWrite (opt.longopt.getD []) msgOptionName,
    uint32Write opt.type msgOptionType, uint32Write opt.hasArg msgOptionHasArg,
    uint32Write opt.inputType msgOptionInputType] ++
  (opt.description.map (textWrite · msgOptionDesc)).toList ++
  if (opt.type &&& optionTypeContext ≠ 0 ∧ ¬ context) ∨ (parentNeedContext ∧ ¬ context) then []
  else ((opt.value.filter (· ≠ [])).map (textWrite · msgOptionValue)).toList

mutual

/-- The chunks of an option without contexts and of its own options. -/
def constructOption (parentNeedContext defaultContext : Bool) : PreludeOption → List OptionChunk
  | .mk opt optlist =>
    let typed : Bool := opt.type &&& optionTypeContext ≠ 0
    let need := typed || parentNeedContext
    let context := !typed && defaultContext
    let wide : Bool := opt.type &&& optionTypeWide ≠ 0
    (if wide then sendOptionMsg need context opt else []) ++
      constructOptionMsg need context optlist ++
      if wide then [(msgOptionEnd, [])] else []

def constructOptionMsg (parentNeedContext defaultContext : Bool) :
    List PreludeOption → List OptionChunk
  | [] => []
  | opt :: opts => constructOption parentNeedContext defaultContext opt ++
      constructOptionMsg parentNeedContext defaultContext opts

end

def preludeOptionWideSendMsg (context : Bool) (root : PreludeOption) : List OptionChunk :=
  [(msgOptionList, []), (msgOptionStart, [])] ++ constructOptionMsg false context root.optlist

def extractUint32Safe (buf : List UInt8) : Except ErrorCode UInt32 :=
  if buf.length ≠ 4 then .error .invalInt32 else .ok (extractUint32 buf 0)

def extractCharactersSafe (buf : List UInt8) : Except ErrorCode (List UInt8) :=
  if buf.length < 2 ∨ buf.getLast? ≠ some 0 then .error .invalChar
  else .ok (PreludeString.cString buf)

def newOption : PreludeOption := .mk ⟨none, 0, 0, 0, 0, none, none⟩ []

namespace PreludeOption

def setInfo (f : OptionInfo → OptionInfo) : PreludeOption → PreludeOption
  | mk info optlist => mk (f info) optlist

def addTail : PreludeOption → PreludeOption → PreludeOption
  | mk info optlist, opt => mk info (optlist ++ [opt])

end PreludeOption

/-- What a chunk sets of an option; an unknown one is skipped. -/
def readOptionField (tag : UInt8) (buf : List UInt8) (opt : PreludeOption) :
    Except ErrorCode PreludeOption :=
  if tag = msgOptionValue then
    (extractCharactersSafe buf).map fun tmp => opt.setInfo ({ · with value := some tmp })
  else if tag = msgOptionName then
    (extractCharactersSafe buf).map fun tmp => opt.setInfo ({ · with longopt := some tmp })
  else if tag = msgOptionDesc then
    (extractCharactersSafe buf).map fun tmp => opt.setInfo ({ · with description := some tmp })
  else if tag = msgOptionHelp ∨ tag = msgOptionInputValidation then
    (extractCharactersSafe buf).map fun _ => opt
  else if tag = msgOptionHasArg then
    (extractUint32Safe buf).map fun tmp => opt.setInfo ({ · with hasArg := tmp })
  else if tag = msgOptionType then
    (extractUint32Safe buf).map fun tmp => opt.setInfo ({ · with type := tmp })
  else if tag = msgOptionInputType then
    (extractUint32Safe buf).map fun tmp => opt.setInfo ({ · with inputType := tmp })
  else .ok opt

/-- The option with what was read, and the chunks that are left, which are not more. -/
def readOptionList (chunks : List OptionChunk) (opt : PreludeOption) :
    { r : Ret × List OptionChunk × PreludeOption // r.2.1.length ≤ chunks.length } :=
  match chunks with
  | [] => ⟨(.ok (), [], opt), le_rfl⟩
  | (tag, buf) :: rest =>
    if tag = msgOptionStart then
      let ⟨(_, rest', child), hle⟩ := readOptionList rest newOption
      let ⟨r, hr⟩ := readOptionList rest' (opt.addTail child)
      ⟨r, (hr.trans hle).trans (Nat.le_succ _)⟩
    else if tag = msgOptionEnd then ⟨(.ok (), rest, opt), Nat.le_succ _⟩
    else
      match readOptionField tag buf opt with
      | .error e => ⟨(.error e, rest, opt), Nat.le_succ _⟩
      | .ok opt =>
        let ⟨r, hr⟩ := readOptionList rest opt
        ⟨r, hr.trans (Nat.le_succ _)⟩
termination_by chunks.length
decreasing_by
  · exact Nat.lt_succ_self _
  · exact Nat.lt_succ_of_le hle
  · exact Nat.lt_succ_self _

inductive ReplyType where
  | set
  | get
  | list
  | error
  deriving DecidableEq

inductive ReplyValue where
  | nothing
  | text (text : List UInt8)
  | options (opt : PreludeOption)

structure Reply where
  type : Option ReplyType
  sourceId : Option (List UInt8)
  requestId : Option UInt32
  value : ReplyValue

/-- What a chunk other than a list of options says about a reply. -/
def readReplyField (tag : UInt8) (buf : List UInt8) (reply : Reply) : Except ErrorCode Reply :=
  if tag = msgOptionRequestId then
    (extractUint32Safe buf).map fun id => { reply with type := some .set, requestId := some id }
  else if tag = msgOptionValue then
    (extractCharactersSafe buf).map fun s => { reply with type := some .get, value := .text s }
  else if tag = msgOptionError then
    if buf = [] then
      .ok { reply with type := some .error, value := .text (ascii "No error message") }
    else
      (extractCharactersSafe buf).map fun s => { reply with type := some .error, value := .text s }
  else if tag = msgOptionTargetId then
    if buf.length % 8 ≠ 0 ∨ buf.length < 16 then .error .generic
    else .ok { reply with sourceId := some (buf.drop (buf.length - 8)) }
  else .ok reply

def preludeOptionRecvReply (chunks : List OptionChunk) (reply : Reply) : Except ErrorCode Reply :=
  match chunks with
  | [] => .ok reply
  | (tag, buf) :: rest =>
    if tag = msgOptionList then
      let ⟨(ret, rest', opt), _hle⟩ := readOptionList rest newOption
      match ret with
      | .error e => .error e
      | .ok () =>
        preludeOptionRecvReply rest' { reply with type := some .list, value := .options opt }
    else
      match readReplyField tag buf reply with
      | .error e => .error e
      | .ok reply => preludeOptionRecvReply rest reply
termination_by chunks.length
decreasing_by
  · exact Nat.lt_succ_of_le _hle
  · exact Nat.lt_succ_self _

end LibPrelude
