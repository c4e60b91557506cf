import LibPrelude.Message.Read

/-! # Delimited strings

A string is written behind its length, and read back by reading the length and then as
many bytes. Neither write is repeated when the descriptor takes only a part, and a read of
no bytes looks like the end of the stream.
-/

namespace LibPrelude

open Bytes Resume

/-- A descriptor: what was written to it, and what the next writes do, fail or take at most so
many bytes; after that they take everything. -/
structure Sink where
  out : List UInt8
  turns : List (Except ErrorCode ℕ)

def Sink.write (buf : List UInt8) (w : Sink) : Except ErrorCode ℕ × Sink :=
  match w.turns with
  | [] => (.ok buf.length, { w with out := w.out ++ buf })
  | .error e :: turns => (.error e, { w with turns })
  | .ok n :: turns => (.ok (buf.take n).length, { out := w.out ++ buf.take n, turns })

def preludeIoWriteDelimited (buf : List UInt8) (w : Sink) : Except ErrorCode ℕ × Sink :=
  match w.write (beBytes 2 buf.length) with
  | (.error e, w) => (.error e, w)
  | (.ok 0, w) => (.ok 0, w)
  | (.ok _, w) =>
    match w.write buf with
    | (.error e, w) => (.error e, w)
    | (.ok 0, w) => (.ok 0, w)
    | (.ok _, w) => (.ok buf.length, w)

/-- Poll and read until `count` bytes are there. -/
def preludeIoReadWait (poll : Stream → Ret) :
    ℕ → List UInt8 → ℕ → Stream → Option (Except ErrorCode (List UInt8) × Stream)
  | 0, _, _, _ => none
  | fuel + 1, buf, count, d =>
    match poll d with
    | .error e => some (.error e, d)
    | .ok () =>
      match d.read (count - buf.length) with
      | (.error e, d) => some (.error e, d)
      | (.ok bs, d) =>
        if (buf ++ bs).length = count then some (.ok (buf ++ bs), d)
        else preludeIoReadWait poll fuel (buf ++ bs) count d

def preludeIoReadDelimited (poll : Stream → Ret) (d : Stream) :
    Option (Except ErrorCode (List UInt8) × Stream) :=
  (preludeIoReadWait poll 3 [] 2 d).bind fun
    | (.error e, d) => some (.error e, d)
    | (.ok msglen, d) =>
      let count := ofBe msglen
      preludeIoReadWait poll (count + 1) [] count d

def writeDelimiteds : List (List UInt8) → Sink → List (Except ErrorCode ℕ × List UInt8) × Sink
  | [], w => ([], w)
  | b :: bs, w =>
    let (ret, w') := preludeIoWriteDelimited b w
    let (rets, w'') := writeDelimiteds bs w'
    ((ret, w'.out.drop w.out.length) :: rets, w'')

def readDelimiteds (poll : Stream → Ret) : ℕ → Stream → Option (List (List UInt8))
  | 0, _ => some []
  | n + 1, d => (preludeIoReadDelimited poll d).bind fun
    | (.error _, _) => some []
    | (.ok b, d) => (readDelimiteds poll n d).map (b :: ·)

def delimited (b : List UInt8) : List UInt8 := beBytes 2 b.length ++ b

/-- Strings that were written without error are read back whatever the reads deliver, and a write
that did not transfer its string reports no success. -/
structure RoundTrip (bs : List (List UInt8)) (turns : List (Except ErrorCode ℕ)) : Prop where
  transferred : List.Forall₂ (fun b (ret : Except ErrorCode ℕ × List UInt8) =>
    ret.1 = .ok b.length → ret.2 = delimited b) bs (writeDelimiteds bs ⟨[], turns⟩).1
  read : List.Forall₂ (fun b (ret : Except ErrorCode ℕ × List UInt8) => ret.1 = .ok b.length)
      bs (writeDelimiteds bs ⟨[], turns⟩).1 →
    ∀ (poll : Stream → Ret) (d : Stream), (∀ d, d.pending ≠ [] → poll d = .ok ()) →
      d.pending = (writeDelimiteds bs ⟨[], turns⟩).2.out → Delivery.blocks d.turns = 0 →
      d.final = .eof → readDelimiteds poll bs.length d = some bs

/-- How many of some bytes a turn of the descriptor takes. -/
def taken (n : ℕ) : Option (Except ErrorCode ℕ) → Option ℕ
  | none => some n
  | some (.error _) => none
  | some (.ok k) => some (min k n)

theorem taken_le {n k : ℕ} : ∀ {turn : Option (Except ErrorCode ℕ)}, taken n turn = some k → k ≤ n
  | none, h => (Option.some.inj h).ge
  | some (.ok _), h => Option.some.inj h ▸ Nat.min_le_right _ _

def TakesAll (b : List UInt8) (turns : List (Except ErrorCode ℕ)) : Prop :=
  taken 2 turns.head? = some 2 ∧ taken b.length turns.tail.head? = some b.length

/-- The descriptor takes a part of the length and something of the string, or a part of the
string; of an empty string it takes less than the length. -/
def Cut (b : List UInt8) (turns : List (Except ErrorCode ℕ)) : Prop :=
  ∃ k, taken 2 turns.head? = some k ∧ ((k = 0 ∧ b = []) ∨ (0 < k ∧
    ∃ j, taken b.length turns.tail.head? = some j ∧ (0 < j ∨ b = []) ∧ (k < 2 ∨ j < b.length)))

def turnsAfter (turns : List (Except ErrorCode ℕ)) : List (Except ErrorCode ℕ) :=
  if (taken 2 turns.head?).any (0 < ·) then turns.tail.tail else turns.tail

def AnyCut : List (List UInt8) → List (Except ErrorCode ℕ) → Prop
  | [], _ => False
  | b :: bs, turns => Cut b turns ∨ AnyCut bs (turnsAfter turns)

def AllTaken : List (List UInt8) → List (Except ErrorCode ℕ) → Prop
  | [], _ => True
  | b :: bs, turns => TakesAll b turns ∧ AllTaken bs (turnsAfter turns)

section Write

variable {b : List UInt8} {w : Sink}

theorem Sink.write_cases (buf : List UInt8) (w : Sink) :
    (taken buf.length w.turns.head? = none ∧ ∃ e, w.write buf =
      (.error e, ⟨w.out, w.turns.tail⟩)) ∨
    ∃ k ≤ buf.length, taken buf.length w.turns.head? = some k ∧
      w.write buf = (.ok k, ⟨w.out ++ buf.take k, w.turns.tail⟩) := by
  obtain ⟨out, turns⟩ := w
  rcases turns with - | ⟨e | n, turns⟩
  · exact .inr ⟨buf.length, le_rfl, rfl, by rw [List.take_length]; rfl⟩
  · exact .inl ⟨rfl, e, rfl⟩
  · refine .inr ⟨min n buf.length, Nat.min_le_right _ _, rfl, ?_⟩
    rw [Sink.write]
    simp only [List.length_take, List.tail_cons, ← List.take_eq_take_min]

theorem take_append_take_eq_iff {a b : List UInt8} {k j : ℕ} (hk : k ≤ a.length)
    (hj : j ≤ b.length) : a.take k ++ b.take j = a ++ b ↔ k = a.length ∧ j = b.length := by
  constructor
  · intro h
    have hl := congrArg List.length h
    simp only [List.length_append, List.length_take] at hl
    omega
  · rintro ⟨rfl, rfl⟩
    rw [List.take_length, List.take_length]

theorem writeDelimited_spec (b : List UInt8) (w : Sink) : ∃ ret sent,
    preludeIoWriteDelimited b w = (ret, ⟨w.out ++ sent, turnsAfter w.turns⟩) ∧
      ((ret = .ok b.length → sent = delimited b) ↔ ¬ Cut b w.turns) ∧
      (ret = .ok b.length ∧ sent = delimited b ↔ TakesAll b w.turns) := by
  have hlen : (beBytes 2 b.length).length = 2 := length_beBytes 2 _
  rcases Sink.write_cases (beBytes 2 b.length) w with ⟨hk, e, hw⟩ | ⟨k, hle, hk, hw⟩
  · rw [hlen] at hk
    refine ⟨.error e, [], ?_, ?_, ?_⟩
    · rw [preludeIoWriteDelimited, hw, turnsAfter, hk, List.append_nil]
      rfl
    · simp [Cut, hk]
    · simp [TakesAll, hk]
  · rw [hlen] at hk hle
    rcases Nat.eq_zero_or_pos k with rfl | hpos
    · refine ⟨.ok 0, [], ?_, ?_, ?_⟩
      · rw [preludeIoWriteDelimited, hw, turnsAfter, hk]
        rfl
      · have hne : [] ≠ delimited b := by
          rw [Ne, eq_comm, ← List.length_eq_zero_iff, delimited, List.length_append, hlen]
          omega
        simp [Cut, hk, hne, eq_comm (a := 0)]
      · simp [TakesAll, hk, delimited, ← List.length_eq_zero_iff, hlen]
    have hafter : turnsAfter w.turns = w.turns.tail.tail := by
      rw [turnsAfter, hk]
      simp [hpos]
    rw [hafter]
    rcases Sink.write_cases b ⟨w.out ++ (beBytes 2 b.length).take k, w.turns.tail⟩ with
      ⟨hj, e, hw'⟩ | ⟨j, hle', hj, hw'⟩
    · refine ⟨.error e, (beBytes 2 b.length).take k, ?_, ?_, ?_⟩
      · cases k with
        | zero => omega
        | succ k => rw [preludeIoWriteDelimited, hw]; simp only [hw']
      · simp only [Cut, hk, (id hj : taken b.length w.turns.tail.head? = none),
          Option.some.injEq, exists_eq_left', reduceCtorEq, false_and, exists_false, and_false,
          or_false, hpos.ne', not_false_eq_true, false_imp_iff]
      · simp only [TakesAll, (id hj : taken b.length w.turns.tail.head? = none), reduceCtorEq,
          and_false, false_and]
    · have hwhole : (beBytes 2 b.length).take k ++ b.take j = delimited b ↔
          k = 2 ∧ j = b.length := by
        rw [delimited, take_append_take_eq_iff (by rw [hlen]; exact hle) hle', hlen]
      refine ⟨.ok (if j = 0 then 0 else b.length), (beBytes 2 b.length).take k ++ b.take j,
        ?_, ?_, ?_⟩
      · cases k with
        | zero => omega
        | succ k =>
          rw [preludeIoWriteDelimited, hw]
          cases j with
          | zero => simp only [hw', List.append_assoc]; rfl
          | succ j => simp only [hw', List.append_assoc]; rfl
      · have hz : b = [] ↔ b.length = 0 := List.length_eq_zero_iff.symm
        simp only [hwhole, Except.ok.injEq, Cut, hk, hj, Option.some.injEq, exists_eq_left', hz]
        split <;> omega
      · simp only [hwhole, Except.ok.injEq, TakesAll, hk, hj, Option.some.injEq]
        split <;> omega

theorem writeDelimiteds_spec (bs : List (List UInt8)) (w : Sink) :
    (List.Forall₂ (fun b (ret : Except ErrorCode ℕ × List UInt8) =>
      ret.1 = .ok b.length → ret.2 = delimited b) bs (writeDelimiteds bs w).1 ↔
        ¬ AnyCut bs w.turns) ∧
    (List.Forall₂ (fun b (ret : Except ErrorCode ℕ × List UInt8) =>
      ret.1 = .ok b.length ∧ ret.2 = delimited b) bs (writeDelimiteds bs w).1 ↔
        AllTaken bs w.turns) ∧
    (AllTaken bs w.turns → (writeDelimiteds bs w).2.out = w.out ++ bs.flatMap delimited) := by
  induction bs generalizing w with
  | nil => simp [writeDelimiteds, AnyCut, AllTaken]
  | cons b bs ih =>
    obtain ⟨ret, sent, hw, hcut, htake⟩ := writeDelimited_spec b w
    obtain ⟨ihcut, ihtake, ihout⟩ := ih ⟨w.out ++ sent, turnsAfter w.turns⟩
    have hsent : (w.out ++ sent).drop w.out.length = sent := List.drop_left
    simp only [writeDelimiteds, hw, hsent, List.forall₂_cons, AnyCut, AllTaken]
    refine ⟨?_, ?_, ?_⟩
    · rw [hcut, ihcut, not_or]
    · rw [htake, ihtake]
    · rintro ⟨h, hall⟩
      rw [ihout hall, (htake.mpr h).2, List.append_assoc, List.flatMap_cons]

end Write

section Read

variable {poll : Stream → Ret}

theorem readWait_eq (hpoll : ∀ d, d.pending ≠ [] → poll d = .ok ()) {fuel count : ℕ}
    {buf pre post : List UInt8} {d : Stream} (hpre : pre ≠ [])
    (hcount : (buf ++ pre).length = count) (hfuel : pre.length ≤ fuel)
    (hd : d.pending = pre ++ post) (hb : Delivery.blocks d.turns = 0) : ∃ turns,
      Delivery.blocks turns = 0 ∧
        preludeIoReadWait poll fuel buf count d =
          some (.ok (buf ++ pre), d.advance post turns) := by
  induction fuel generalizing buf pre d with
  | zero => exact absurd (List.length_eq_zero_iff.mp (Nat.le_zero.mp hfuel)) hpre
  | succ fuel ih =>
    rw [List.length_append] at hcount
    have hlen := List.length_pos_iff.mpr hpre
    have hne : d.pending ≠ [] := by simp [hd, hpre]
    simp only [preludeIoReadWait, hpoll d hne]
    rcases d.read_cases (show 0 < count - buf.length by omega) with
      ⟨xs, rest, turns, hn, hle, hp, hbt, hr⟩ | ⟨turns, hbt, -⟩ | ⟨turns, hp, -, -⟩
    · simp only [hr]
      obtain ⟨pre', hpre'⟩ : ∃ pre', pre = xs ++ pre' := by
        refine ⟨pre.drop xs.length, ?_⟩
        have hpref : xs <+: pre :=
          List.prefix_of_prefix_length_le ⟨rest, hp.symm⟩ ⟨post, hd.symm⟩ (by omega)
        exact (List.prefix_iff_eq_append.mp hpref).symm
      subst hpre'
      obtain rfl : rest = pre' ++ post := by
        rw [hd, List.append_assoc] at hp
        exact (List.append_cancel_left hp).symm
      have hxs := List.length_pos_iff.mpr hn
      rw [List.length_append] at hcount hfuel
      rcases eq_or_ne pre' [] with rfl | hpre'
      · have hfull : (buf ++ xs).length = count := by
          rw [List.length_append]
          simpa using hcount
        rw [if_pos hfull, List.append_nil]
        exact ⟨turns, by omega, rfl⟩
      · have hlt := List.length_pos_iff.mpr hpre'
        rw [if_neg (by rw [List.length_append]; omega), ← List.append_assoc]
        refine ih (d := d.advance (pre' ++ post) turns) hpre' ?_ (by omega) rfl ?_
        · rw [List.length_append, List.length_append]
          omega
        · rw [Delivery.advance_turns]
          omega
    · omega
    · exact absurd hp hne

theorem readWait_ok {fuel count : ℕ} {buf bs : List UInt8} {d d' : Stream}
    (h : preludeIoReadWait poll fuel buf count d = some (.ok bs, d')) :
    bs.length = count ∧ bs ≠ [] := by
  induction fuel generalizing buf d with
  | zero => cases h
  | succ fuel ih =>
    rw [preludeIoReadWait] at h
    cases hp : poll d with
    | error e => rw [hp] at h; cases h
    | ok _ =>
      rw [hp] at h
      rcases hr : d.read (count - buf.length) with ⟨e | xs, d₁⟩
      · rw [hr] at h
        cases h
      · rw [hr] at h
        dsimp only at h
        split at h
        case isTrue hc =>
          cases h
          exact ⟨hc, by simp [Delivery.ne_nil_of_read hr]⟩
        case isFalse => exact ih h

theorem readDelimited_ok {b : List UInt8} {d d' : Stream}
    (h : preludeIoReadDelimited poll d = some (.ok b, d')) : b ≠ [] := by
  rw [preludeIoReadDelimited] at h
  obtain ⟨⟨e | msglen, d₁⟩, -, h⟩ := Option.bind_eq_some_iff.mp h
  · cases h
  · exact (readWait_ok h).2

/-- A delimited string is read back. -/
theorem readDelimited_eq (hpoll : ∀ d, d.pending ≠ [] → poll d = .ok ()) {b post : List UInt8}
    (hne : b ≠ []) (hlt : b.length < 2 ^ 16) {d : Stream} (hd : d.pending = delimited b ++ post)
    (hb : Delivery.blocks d.turns = 0) : ∃ turns, Delivery.blocks turns = 0 ∧
      preludeIoReadDelimited poll d = some (.ok b, d.advance post turns) := by
  have hlen : (beBytes 2 b.length).length = 2 := length_beBytes 2 _
  have hlenv : ofBe ([] ++ beBytes 2 b.length) = b.length := ofBe_beBytes_of_lt hlt
  rw [delimited, List.append_assoc] at hd
  obtain ⟨turns, hb₁, hr₁⟩ := @readWait_eq poll hpoll 3 2 [] (beBytes 2 b.length) (b ++ post) d
    (List.ne_nil_of_length_pos (by omega)) hlen (by omega) hd hb
  obtain ⟨turns', hb₂, hr₂⟩ := @readWait_eq poll hpoll (b.length + 1) b.length [] b post
    (d.advance (b ++ post) turns) hne rfl (by omega) rfl hb₁
  refine ⟨turns', hb₂, ?_⟩
  rw [preludeIoReadDelimited, hr₁, Option.bind_some]
  dsimp only
  rw [hlenv, hr₂]
  rfl

theorem readDelimiteds_eq (hpoll : ∀ d, d.pending ≠ [] → poll d = .ok ())
    {bs : List (List UInt8)} (hne : ∀ b ∈ bs, b ≠ []) (hlt : ∀ b ∈ bs, b.length < 2 ^ 16)
    {d : Stream} (hd : d.pending = bs.flatMap delimited) (hb : Delivery.blocks d.turns = 0) :
    readDelimiteds poll bs.length d = some bs := by
  induction bs generalizing d with
  | nil => rfl
  | cons b bs ih =>
    rw [List.flatMap_cons] at hd
    obtain ⟨turns, hb', hr⟩ := readDelimited_eq hpoll (hne b List.mem_cons_self)
      (hlt b List.mem_cons_self) hd hb
    rw [List.length_cons, readDelimiteds, hr, Option.bind_some]
    dsimp only
    rw [ih (fun c hc => hne c (List.mem_cons_of_mem b hc))
      (fun c hc => hlt c (List.mem_cons_of_mem b hc)) rfl hb']
    rfl

theorem readDelimiteds_ne_nil {n : ℕ} {d : Stream} {bs : List (List UInt8)}
    (h : readDelimiteds poll n d = some bs) : ∀ b ∈ bs, b ≠ [] := by
  induction n generalizing d bs with
  | zero =>
    cases h
    simp
  | succ n ih =>
    rw [readDelimiteds] at h
    obtain ⟨⟨e | b, d'⟩, hb, h⟩ := Option.bind_eq_some_iff.mp h
    · cases h
      simp
    · obtain ⟨bs', hbs, rfl⟩ := Option.map_eq_some_iff.mp h
      exact List.forall_mem_cons.mpr ⟨readDelimited_ok hb, ih hbs⟩

end Read

theorem forall₂_ok_of_allTaken {bs : List (List UInt8)} {turns : List (Except ErrorCode ℕ)}
    (h : AllTaken bs turns) : List.Forall₂ (fun b (ret : Except ErrorCode ℕ × List UInt8) =>
      ret.1 = .ok b.length) bs (writeDelimiteds bs ⟨[], turns⟩).1 :=
  ((writeDelimiteds_spec bs ⟨[], turns⟩).2.1.mpr h).imp fun _ _ h => h.1

theorem not_roundTrip_of_empty {bs : List (List UInt8)} {turns : List (Except ErrorCode ℕ)}
    (h : AllTaken bs turns) (hb : [] ∈ bs) : ¬ RoundTrip bs turns := by
  intro hr
  have hread := hr.read (forall₂_ok_of_allTaken h) (fun _ => .ok ())
    ⟨(writeDelimiteds bs ⟨[], turns⟩).2.out, [], .eof, by decide⟩ (fun _ _ => rfl) rfl rfl rfl
  exact readDelimiteds_ne_nil hread [] hb rfl

/-- Delimited strings come back, and a success means that the string was sent, when no write of
a length or a string is cut short and, once all were written, none of the strings is empty. -/
theorem roundTrip_iff (bs : List (List UInt8)) (hlt : ∀ b ∈ bs, b.length < 2 ^ 16)
    (turns : List (Except ErrorCode ℕ)) :
    RoundTrip bs turns ↔ ¬ AnyCut bs turns ∧ (AllTaken bs turns → ∀ b ∈ bs, b ≠ []) := by
  obtain ⟨hcut, htake, hout⟩ := writeDelimiteds_spec bs ⟨[], turns⟩
  constructor
  · intro h
    refine ⟨hcut.mp h.transferred, ?_⟩
    rintro hall b hb rfl
    exact not_roundTrip_of_empty hall hb h
  · rintro ⟨hno, hne⟩
    have htr := hcut.mpr hno
    refine ⟨htr, ?_⟩
    intro hok poll d hpoll hd hb hfinal
    have hall : AllTaken bs turns := by
      refine htake.mp ?_
      rw [List.forall₂_iff_get] at hok htr ⊢
      exact ⟨hok.1, fun i h h' => ⟨hok.2 i h h', htr.2 i h h' (hok.2 i h h')⟩⟩
    rw [hout hall, List.nil_append] at hd
    exact readDelimiteds_eq hpoll (hne hall) hlt hd hb

theorem roundTrip_word : RoundTrip [[7, 8]] [] := by
  refine (roundTrip_iff [[7, 8]] (by simp) []).mpr ⟨?_, fun _ => by simp⟩
  rintro (⟨k, hk, ⟨-, h⟩ | ⟨-, j, hj, -, h⟩⟩ | h)
  · cases h
  · cases hk
    cases hj
    simp at h
  · exact h

theorem not_roundTrip_part : ¬ RoundTrip [[7, 8]] [.ok 2, .ok 1] := by
  intro h
  have := (writeDelimiteds_spec [[7, 8]] ⟨[], [.ok 2, .ok 1]⟩).1.mp h.transferred
  exact this (.inl ⟨2, rfl, .inr ⟨by omega, 1, rfl, .inl (by omega), .inr (by decide)⟩⟩)

end LibPrelude
