import LibPrelude.Io.Delimited
import LibPrelude.Message.Backends
import LibPrelude.Message.Write

/-! # Forwarding

A header is put together again and written, and the data behind it is copied in pieces. The
time of the header is never filled in, and the copy counts what was read, not what was
written.
-/

namespace LibPrelude

open Bytes Resume

section Source

variable {σ : Type} (rd : ℕ → σ → Except ErrorCode (List UInt8) × σ)

def copyForward (scount : ℕ) : ℕ → ℕ → Sink → σ → Option (Except ErrorCode ℕ × Sink × σ)
  | _, 0, dst, src => some (.ok scount, dst, src)
  | 0, _ + 1, _, _ => none
  | fuel + 1, count + 1, dst, src =>
    match rd (min (count + 1) 8192) src with
    | (.error e, src) => some (.error e, dst, src)
    | (.ok [], src) => some (.ok 0, dst, src)
    | (.ok (b :: bs), src) =>
      match dst.write (b :: bs) with
      | (.error e, dst) => some (.error e, dst, src)
      | (.ok _, dst) => copyForward scount fuel (count - bs.length) dst src

def preludeIoForward (dst : Sink) (src : σ) (count : ℕ) :
    Option (Except ErrorCode ℕ × Sink × σ) :=
  copyForward rd count count count dst src

/-- The header that is written; `buf` holds whatever was on the stack. -/
def forwardHeader (buf : List UInt8) (hdr : Hdr) : List UInt8 :=
  [hdr.version, hdr.tag, hdr.priority, hdr.isFragment] ++ leBytes 4 (htonl hdr.datalen).toNat ++
    buf.drop 8

def preludeMsgForward (buf : List UInt8) (msg : Msg) (dst : Sink) (src : σ) :
    Option (Ret × Sink × σ) :=
  match dst.write (forwardHeader buf msg.hdr) with
  | (.error e, dst) => some (.error e, dst, src)
  | (.ok _, dst) =>
    (preludeIoForward rd dst src msg.hdr.datalen.toNat).map fun
      | (.error e, dst, src) => (.error e, dst, src)
      | (.ok _, dst, src) => (.ok (), dst, src)

end Source

/-- A success means that the header and the data went through, and a count means that so many
bytes did. -/
structure Forwards (b : Backend) (buf : List UInt8) (msg : Msg) (count : ℕ) (dst : Sink)
    (src : b.State) : Prop where
  msg : ∀ dst' src', preludeMsgForward b.read buf msg dst src = some (.ok (), dst', src') →
    ∃ data, data.length = msg.hdr.datalen.toNat ∧ b.pending src = data ++ b.pending src' ∧
      dst'.out = dst.out ++ msg.hdr.bytes ++ data
  count : ∀ dst' src', preludeIoForward b.read dst src count = some (.ok count, dst', src') →
    ∃ data, data.length = count ∧ b.pending src = data ++ b.pending src' ∧
      dst'.out = dst.out ++ data

def pieces {σ : Type} (rd : ℕ → σ → Except ErrorCode (List UInt8) × σ) :
    ℕ → ℕ → σ → Option (List (List UInt8) × σ)
  | _, 0, src => some ([], src)
  | 0, _ + 1, _ => none
  | fuel + 1, count + 1, src =>
    match rd (min (count + 1) 8192) src with
    | (.error _, _) => none
    | (.ok [], src) => some ([], src)
    | (.ok (b :: bs), src) =>
      (pieces rd fuel (count - bs.length) src).map fun (ps, src) => ((b :: bs) :: ps, src)

def sent : List (List UInt8) → List (Except ErrorCode ℕ) → Option (List UInt8)
  | [], _ => some []
  | p :: ps, turns => (taken p.length turns.head?).bind fun k =>
    (sent ps turns.tail).map (p.take k ++ ·)

def TakenWhole : List (List UInt8) → List (Except ErrorCode ℕ) → Prop
  | [], _ => True
  | p :: ps, turns => taken p.length turns.head? = some p.length ∧ TakenWhole ps turns.tail

theorem sent_spec {ps : List (List UInt8)} {turns : List (Except ErrorCode ℕ)} {out : List UInt8}
    (h : sent ps turns = some out) :
    out.length ≤ ps.flatten.length ∧ (out.length = ps.flatten.length ↔ TakenWhole ps turns) ∧
      (TakenWhole ps turns → out = ps.flatten) := by
  induction ps generalizing turns out with
  | nil =>
    cases h
    simp [TakenWhole]
  | cons p ps ih =>
    obtain ⟨k, hk, h⟩ := Option.bind_eq_some_iff.mp h
    obtain ⟨rest, hrest, rfl⟩ := Option.map_eq_some_iff.mp h
    obtain ⟨hle, heq, hwhole⟩ := ih hrest
    have hkp := taken_le hk
    simp only [List.length_append, List.length_take, List.flatten_cons, TakenWhole, hk,
      Option.some.injEq, ← heq]
    refine ⟨by omega, by omega, ?_⟩
    rintro ⟨rfl, hw⟩
    rw [List.take_length, hwhole (heq.mp hw)]

theorem Backend.read_ok : ∀ {b : Backend} {count : ℕ} {s s' : b.State} {xs : List UInt8},
    0 < count → b.read count s = (.ok xs, s') →
      xs.length ≤ count ∧ b.pending s = xs ++ b.pending s' := by
  intro b count s s' xs hpos h
  cases b with
  | sys =>
    rcases Delivery.read_cases s hpos with
      ⟨ys, post, turns, -, hle, hp, -, hr⟩ | ⟨turns, -, hr⟩ | ⟨turns, -, -, hr⟩
    · cases hr.symm.trans h
      exact ⟨hle, hp⟩
    · cases hr.symm.trans h
    · cases hr.symm.trans h
  | file =>
    change fileRead count s = _ at h
    rw [fileRead, if_neg (by omega)] at h
    split at h
    · cases h
      exact ⟨List.length_take_le _ _, (List.take_append_drop _ _).symm⟩
    · cases h
  | buffer =>
    change bufferRead count s = _ at h
    rw [bufferRead] at h
    split at h
    · cases h
      exact ⟨Nat.zero_le _, rfl⟩
    · cases h
      refine ⟨(List.length_take_le _ _).trans (Nat.min_le_left _ _), ?_⟩
      change s.content.drop s.rindex = _ ++ s.content.drop (s.rindex + _)
      rw [← List.drop_drop, List.take_append_drop]

section Copy

variable {b : Backend}

theorem pieces_spec {fuel count : ℕ} {src src' : b.State} {ps : List (List UInt8)}
    (h : pieces b.read fuel count src = some (ps, src')) :
    ps.flatten.length ≤ count ∧ b.pending src = ps.flatten ++ b.pending src' := by
  induction fuel generalizing count src ps with
  | zero =>
    cases count with
    | zero =>
      cases h
      simp
    | succ count => cases h
  | succ fuel ih =>
    cases count with
    | zero =>
      cases h
      simp
    | succ count =>
      rw [pieces] at h
      rcases hr : b.read (min (count + 1) 8192) src with ⟨e | xs, s₁⟩
      · rw [hr] at h
        cases h
      · obtain ⟨hle, hp⟩ := Backend.read_ok (by omega) hr
        rw [hr] at h
        cases xs with
        | nil =>
          cases h
          exact ⟨Nat.zero_le _, hp⟩
        | cons x xs =>
          obtain ⟨⟨ps', s₂⟩, hps, heq⟩ := Option.map_eq_some_iff.mp h
          cases heq
          obtain ⟨hlen, hpend⟩ := ih hps
          rw [List.length_cons] at hle
          rw [List.flatten_cons, List.length_append, List.length_cons, hp, hpend,
            List.append_assoc]
          exact ⟨by omega, rfl⟩

/-- A copy that is over sends nothing more. -/
theorem copy_over_iff {σ : Type} (n count : ℕ) {r : ℕ} {dst dst' : Sink} {src src' : σ} :
    some ((.ok (if count = 0 then n else 0) : Except ErrorCode ℕ), dst, src) =
        some (.ok r, dst', src') ↔
      ∃ ps out, some (([] : List (List UInt8)), src) = some (ps, src') ∧
        sent ps dst.turns = some out ∧ dst' = ⟨dst.out ++ out, dst.turns.drop ps.length⟩ ∧
        r = if ps.flatten.length = count then n else 0 := by
  constructor
  · rintro ⟨⟩
    refine ⟨[], [], rfl, rfl, ?_, ?_⟩
    · rw [List.append_nil]
      rfl
    · simp only [List.flatten_nil, List.length_nil, eq_comm]
  · rintro ⟨ps, out, ⟨⟩, ⟨⟩, rfl, rfl⟩
    simp only [List.append_nil, List.length_nil, List.drop_zero, List.flatten_nil, eq_comm]

theorem copyForward_spec {scount fuel count r : ℕ} {dst dst' : Sink} {src src' : b.State} :
    copyForward b.read scount fuel count dst src = some (.ok r, dst', src') ↔
      ∃ ps out, pieces b.read fuel count src = some (ps, src') ∧
        sent ps dst.turns = some out ∧ dst' = ⟨dst.out ++ out, dst.turns.drop ps.length⟩ ∧
        r = if ps.flatten.length = count then scount else 0 := by
  induction fuel generalizing count dst src with
  | zero =>
    cases count with
    | zero => exact copy_over_iff scount 0
    | succ count => simp [copyForward, pieces]
  | succ fuel ih =>
    cases count with
    | zero => exact copy_over_iff scount 0
    | succ count =>
      rw [copyForward, pieces]
      rcases hr : b.read (min (count + 1) 8192) src with ⟨e | xs, s₁⟩
      · simp
      · obtain ⟨hle, hp⟩ := Backend.read_ok (by omega) hr
        cases xs with
        | nil => exact copy_over_iff scount (count + 1)
        | cons x xs =>
          dsimp only
          rw [List.length_cons] at hle
          rcases Sink.write_cases (x :: xs) dst with ⟨hk, e, hw⟩ | ⟨k, hle', hk, hw⟩
          · rw [hw]
            constructor
            · nofun
            · rintro ⟨ps, out, hps, hsent, -⟩
              obtain ⟨⟨ps', s₂⟩, -, heq⟩ := Option.map_eq_some_iff.mp hps
              cases heq
              rw [sent, hk] at hsent
              cases hsent
          · rw [hw]
            dsimp only
            rw [ih]
            constructor
            · rintro ⟨ps, out, hps, hsent, rfl, rfl⟩
              refine ⟨(x :: xs) :: ps, (x :: xs).take k ++ out, ?_, ?_, ?_, ?_⟩
              · rw [hps]
                rfl
              · rw [sent, hk, Option.bind_some, hsent]
                rfl
              · rw [List.append_assoc, List.length_cons, List.drop_tail]
              · have hlen := (pieces_spec hps).1
                simp only [List.flatten_cons, List.length_append, List.length_cons]
                congr 1
                rw [eq_iff_iff]
                omega
            · rintro ⟨ps, out, hps, hsent, rfl, rfl⟩
              obtain ⟨⟨ps', s₂⟩, hps', heq⟩ := Option.map_eq_some_iff.mp hps
              cases heq
              rw [sent, hk, Option.bind_some] at hsent
              obtain ⟨out', hout', rfl⟩ := Option.map_eq_some_iff.mp hsent
              refine ⟨ps', out', hps', hout', ?_, ?_⟩
              · rw [List.append_assoc, List.length_cons, List.drop_tail]
              · have hlen := (pieces_spec hps').1
                simp only [List.flatten_cons, List.length_append, List.length_cons]
                congr 1
                rw [eq_iff_iff]
                omega

theorem msgForward_spec {buf : List UInt8} {msg : Msg} {dst dst' : Sink} {src src' : b.State} :
    preludeMsgForward b.read buf msg dst src = some (.ok (), dst', src') ↔
      ∃ ps out, pieces b.read msg.hdr.datalen.toNat msg.hdr.datalen.toNat src = some (ps, src') ∧
        sent (forwardHeader buf msg.hdr :: ps) dst.turns = some out ∧
        dst' = ⟨dst.out ++ out, dst.turns.drop (ps.length + 1)⟩ := by
  simp only [preludeMsgForward, preludeIoForward, sent]
  rcases Sink.write_cases (forwardHeader buf msg.hdr) dst with ⟨hk, e, hw⟩ | ⟨k, -, hk, hw⟩
  · rw [hw, hk]
    simp
  · rw [hw, hk]
    dsimp only
    constructor
    · intro h
      obtain ⟨⟨e | r, dst₁, src₁⟩, hcopy, heq⟩ := Option.map_eq_some_iff.mp h
      · cases heq
      · cases heq
        obtain ⟨ps, out, hps, hsent, rfl, -⟩ := copyForward_spec.mp hcopy
        refine ⟨ps, (forwardHeader buf msg.hdr).take k ++ out, hps, ?_, ?_⟩
        · rw [Option.bind_some, hsent]
          rfl
        · rw [List.append_assoc, List.drop_tail]
    · rintro ⟨ps, out, hps, hsent, rfl⟩
      obtain ⟨out', hout', rfl⟩ := Option.map_eq_some_iff.mp hsent
      rw [Option.map_eq_some_iff]
      refine ⟨_, copyForward_spec.mpr ⟨ps, out', hps, hout', rfl, rfl⟩, ?_⟩
      dsimp only
      rw [List.append_assoc, List.drop_tail]

end Copy

/-- The writes that take the pieces do so whole, unless one fails. -/
def CountKept (b : Backend) (count : ℕ) (dst : Sink) (src : b.State) : Prop :=
  ∀ ps src', pieces b.read count count src = some (ps, src') → ps.flatten.length = count →
    (sent ps dst.turns).isSome → TakenWhole ps dst.turns

/-- The stack holds the time of the header, the reads deliver all data and the writes take it
whole, unless one of them fails. -/
def FrameKept (b : Backend) (buf : List UInt8) (msg : Msg) (dst : Sink) (src : b.State) : Prop :=
  ∀ ps src', pieces b.read msg.hdr.datalen.toNat msg.hdr.datalen.toNat src = some (ps, src') →
    (sent (forwardHeader buf msg.hdr :: ps) dst.turns).isSome →
      buf.drop 8 = beBytes 4 msg.hdr.tvSec.toNat ++ beBytes 4 msg.hdr.tvUsec.toNat ∧
        ps.flatten.length = msg.hdr.datalen.toNat ∧
        TakenWhole (forwardHeader buf msg.hdr :: ps) dst.turns

theorem count_iff {b : Backend} {count : ℕ} {dst : Sink} {src : b.State} :
    (∀ dst' src', preludeIoForward b.read dst src count = some (.ok count, dst', src') →
      ∃ data, data.length = count ∧ b.pending src = data ++ b.pending src' ∧
        dst'.out = dst.out ++ data) ↔ CountKept b count dst src := by
  constructor
  · intro h ps src' hps hlen hsent
    obtain ⟨out, hout⟩ := Option.isSome_iff_exists.mp hsent
    obtain ⟨data, hdata, -, heq⟩ := h _ src' (copyForward_spec.mpr
      ⟨ps, out, hps, hout, rfl, (if_pos hlen).symm⟩)
    obtain rfl : out = data := List.append_cancel_left heq
    exact (sent_spec hout).2.1.mp (hdata.trans hlen.symm)
  · intro h dst' src' hfwd
    obtain ⟨ps, out, hps, hout, rfl, hr⟩ := copyForward_spec.mp hfwd
    obtain ⟨hle, hpend⟩ := pieces_spec hps
    have hlen : ps.flatten.length = count := by
      split at hr <;> omega
    have hwhole := h ps src' hps hlen (Option.isSome_iff_exists.mpr ⟨out, hout⟩)
    rw [(sent_spec hout).2.2 hwhole]
    exact ⟨ps.flatten, hlen, hpend, rfl⟩

theorem frame_iff {b : Backend} {buf : List UInt8} (hbuf : buf.length = 16) {msg : Msg}
    {dst : Sink} {src : b.State} :
    (∀ dst' src', preludeMsgForward b.read buf msg dst src = some (.ok (), dst', src') →
      ∃ data, data.length = msg.hdr.datalen.toNat ∧ b.pending src = data ++ b.pending src' ∧
        dst'.out = dst.out ++ msg.hdr.bytes ++ data) ↔ FrameKept b buf msg dst src := by
  have hhdr : (forwardHeader buf msg.hdr).length = 16 := by
    simp [forwardHeader, leBytes_htonl, hbuf]
  have hbytes : forwardHeader buf msg.hdr = msg.hdr.bytes ↔
      buf.drop 8 = beBytes 4 msg.hdr.tvSec.toNat ++ beBytes 4 msg.hdr.tvUsec.toNat := by
    rw [forwardHeader, leBytes_htonl, Hdr.bytes, List.append_assoc _ (beBytes 4 _) (beBytes 4 _),
      List.append_cancel_left_eq]
  have h16 : msg.hdr.bytes.length = 16 := by simp [Hdr.bytes]
  constructor
  · intro h ps src' hps hsent
    obtain ⟨out, hout⟩ := Option.isSome_iff_exists.mp hsent
    obtain ⟨data, hdata, hpend, heq⟩ := h _ src' (msgForward_spec.mpr ⟨ps, out, hps, hout, rfl⟩)
    rw [List.append_assoc] at heq
    obtain rfl : out = msg.hdr.bytes ++ data := List.append_cancel_left heq
    obtain ⟨hle, hpend'⟩ := pieces_spec hps
    obtain rfl : data = ps.flatten := List.append_cancel_right (hpend.symm.trans hpend')
    obtain ⟨-, hwhole, hflat⟩ := sent_spec hout
    rw [List.flatten_cons, List.length_append, List.length_append, h16, hhdr] at hwhole
    have hw := hwhole.mp rfl
    refine ⟨hbytes.mp ?_, hdata, hw⟩
    have heq := hflat hw
    rw [List.flatten_cons] at heq
    exact (List.append_cancel_right heq).symm
  · intro h dst' src' hfwd
    obtain ⟨ps, out, hps, hout, rfl⟩ := msgForward_spec.mp hfwd
    obtain ⟨htime, hlen, hw⟩ := h ps src' hps (Option.isSome_iff_exists.mpr ⟨out, hout⟩)
    rw [(sent_spec hout).2.2 hw, List.flatten_cons, hbytes.mpr htime]
    exact ⟨ps.flatten, hlen, (pieces_spec hps).2, (List.append_assoc _ _ _).symm⟩

/-- What was read goes through when every write takes its bytes whole, the source does not end in
a read of nothing and the stack happens to hold the time of the message. -/
theorem forwards_iff (b : Backend) (buf : List UInt8) (hbuf : buf.length = 16) (msg : Msg)
    (count : ℕ) (dst : Sink) (src : b.State) :
    Forwards b buf msg count dst src ↔
      FrameKept b buf msg dst src ∧ CountKept b count dst src := by
  rw [← frame_iff hbuf, ← count_iff]
  exact ⟨fun h => ⟨h.msg, h.count⟩, fun h => ⟨h.1, h.2⟩⟩

def stampedMsg : Msg := { Msg.fresh with hdr := ⟨0, 0, 0, 0, 0, 1, 0⟩ }

def timedMsg : Msg := { Msg.fresh with hdr := ⟨0, 0, 0, 0, 2, 1, 0⟩ }

/-- The stack happens to hold the time; the data is read one byte at a time, from a source that
has another one behind it. -/
theorem forwards_timed : ∃ dst',
    preludeMsgForward Backend.sys.read (List.replicate 11 0 ++ [1, 0, 0, 0, 0]) timedMsg
      ⟨[], [.ok 16, .ok 5]⟩ (⟨[7, 8, 9], [.upTo 0, .upTo 0], .eof, by decide⟩ : Stream) =
      some (.ok (), dst', ⟨[9], [], .eof, by decide⟩) ∧
    dst'.out = [] ++ timedMsg.hdr.bytes ++ [7, 8] := by
  have h : Forwards .sys (List.replicate 11 0 ++ [1, 0, 0, 0, 0]) timedMsg 2 ⟨[], [.ok 16, .ok 5]⟩
      (⟨[7, 8, 9], [.upTo 0, .upTo 0], .eof, by decide⟩ : Stream) := by
    refine (forwards_iff .sys _ rfl timedMsg 2 _ _).mpr ⟨?_, ?_⟩
    · rintro ps src' ⟨⟩ -
      exact ⟨by decide, rfl, rfl, rfl, rfl, trivial⟩
    · rintro ps src' ⟨⟩ - -
      exact ⟨rfl, rfl, trivial⟩
  obtain ⟨data, -, hdata, hout⟩ := h.msg _ _ rfl
  obtain rfl : [7, 8] = data :=
    List.append_cancel_right (show [7, 8] ++ [9] = data ++ [9] from hdata)
  exact ⟨_, rfl, hout⟩

theorem not_forwards_stamped : ¬ Forwards .sys (List.replicate 16 0) stampedMsg 0 ⟨[], []⟩
    (⟨[], [], .eof, by decide⟩ : Stream) := by
  intro h
  exact absurd (frame_iff (by rfl) |>.mp h.msg [] _ rfl rfl).1 (by decide)

end LibPrelude
