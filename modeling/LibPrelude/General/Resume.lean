import Mathlib.Data.List.Basic

/-! # Resumable readers

A byte stream is delivered in pieces, with would-block errors in between. A
machine absorbs the stream one element at a time. A reader that may be
interrupted anywhere refines the machine when each of its calls absorbs exactly
the elements that it takes from the stream; its outputs then do not depend on
the way the stream is delivered.
-/

namespace Resume

variable {σ α ω ε : Type*}

/-- What one read of the stream does: deliver up to `n + 1` elements, or would block. -/
inductive Turn where
  | upTo (n : ℕ)
  | wouldBlock
  deriving DecidableEq, Repr

/-- Elements not delivered yet, the schedule of the next reads and the error past the end. -/
structure Delivery (α : Type*) {ε : Type*} (again : ε) where
  pending : List α
  turns : List Turn
  final : ε
  final_ne : final ≠ again

namespace Delivery

variable {again : ε}

def contiguous (d : Delivery α again) : Delivery α again := { d with turns := [] }

/-- Take at most `count` elements off the stream; once the schedule is over there is no limit. -/
def read (count : ℕ) (d : Delivery α again) : Except ε (List α) × Delivery α again :=
  let take (n : ℕ) (turns : List Turn) :=
    if d.pending.take n = [] then (.error d.final, { d with turns })
    else (.ok (d.pending.take n), { d with pending := d.pending.drop n, turns })
  match d.turns with
  | [] => take count []
  | .upTo n :: turns => take (min count (n + 1)) turns
  | .wouldBlock :: turns => (.error again, { d with turns })

def advance (d : Delivery α again) (post : List α) (turns : List Turn) : Delivery α again :=
  { d with pending := post, turns }

@[simp] theorem advance_pending (d : Delivery α again) (post : List α) (turns : List Turn) :
    (d.advance post turns).pending = post := rfl

@[simp] theorem advance_turns (d : Delivery α again) (post : List α) (turns : List Turn) :
    (d.advance post turns).turns = turns := rfl

@[simp] theorem advance_final (d : Delivery α again) (post : List α) (turns : List Turn) :
    (d.advance post turns).final = d.final := rfl

@[simp] theorem advance_advance (d : Delivery α again) (p q : List α) (s t : List Turn) :
    (d.advance p s).advance q t = d.advance q t := rfl

def blocks (turns : List Turn) : ℕ := turns.count .wouldBlock

/-- One read delivers a nonempty piece of the right size, blocks, or meets the end. -/
theorem read_cases (d : Delivery α again) {count : ℕ} (hc : 0 < count) :
    (∃ xs post turns, xs ≠ [] ∧ xs.length ≤ count ∧ d.pending = xs ++ post ∧
      blocks turns ≤ blocks d.turns ∧ d.read count = (.ok xs, d.advance post turns)) ∨
    (∃ turns, blocks turns < blocks d.turns ∧
      d.read count = (.error again, d.advance d.pending turns)) ∨
    (∃ turns, d.pending = [] ∧ blocks turns ≤ blocks d.turns ∧
      d.read count = (.error d.final, d.advance [] turns)) := by
  have piece (n : ℕ) (hn : 0 < n) (hle : n ≤ count) (turns : List Turn)
      (hb : blocks turns ≤ blocks d.turns)
      (hr : d.read count = if d.pending.take n = [] then (.error d.final, { d with turns })
        else (.ok (d.pending.take n), { d with pending := d.pending.drop n, turns })) :
      (∃ xs post turns, xs ≠ [] ∧ xs.length ≤ count ∧ d.pending = xs ++ post ∧
        blocks turns ≤ blocks d.turns ∧ d.read count = (.ok xs, d.advance post turns)) ∨
      (∃ turns, d.pending = [] ∧ blocks turns ≤ blocks d.turns ∧
        d.read count = (.error d.final, d.advance [] turns)) := by
    by_cases he : d.pending.take n = []
    · have hp : d.pending = [] := by
        rcases List.take_eq_nil_iff.mp he with h | h
        · omega
        · exact h
      exact .inr ⟨turns, hp, hb, by rw [hr, if_pos he, advance, hp]⟩
    · refine .inl ⟨_, _, turns, he, ?_, (List.take_append_drop n _).symm,
        hb, by rw [hr, if_neg he]; rfl⟩
      exact Nat.le_trans (List.length_take_le _ _) hle
  rcases hts : d.turns with - | ⟨t, turns⟩
  · rcases piece count hc (Nat.le_refl _) [] (by simp [hts]) (by simp [read, hts]) with h | h
    · exact .inl (hts ▸ h)
    · exact .inr (.inr (hts ▸ h))
  · cases t with
    | upTo n =>
      have hb : blocks turns ≤ blocks d.turns := by simp [blocks, hts]
      rcases piece (min count (n + 1)) (by omega) (Nat.min_le_left ..) turns hb
        (by simp [read, hts]) with h | h
      · exact .inl (hts ▸ h)
      · exact .inr (.inr (hts ▸ h))
    | wouldBlock =>
      refine .inr (.inl ⟨turns, by simp [blocks], ?_⟩)
      simp [read, hts, advance]

theorem ne_nil_of_read {d d' : Delivery α again} {count : ℕ} {xs : List α}
    (h : d.read count = (.ok xs, d')) : xs ≠ [] := by
  have piece (n : ℕ) (turns : List Turn)
      (hr : (if d.pending.take n = [] then (.error d.final, { d with turns })
        else (.ok (d.pending.take n), { d with pending := d.pending.drop n, turns })) =
          ((.ok xs, d') : Except ε (List α) × Delivery α again)) : xs ≠ [] := by
    split at hr
    case isTrue => cases hr
    case isFalse hne =>
      cases hr
      exact hne
  rcases hts : d.turns with - | ⟨⟨n⟩ | -, turns⟩ <;> simp only [read, hts] at h
  · exact piece _ _ h
  · exact piece _ _ h
  · cases h

end Delivery

/-- What one element does to the machine. -/
inductive Step (σ ω ε : Type*) where
  | more (s : σ)
  | done (w : ω)
  | fail (e : ε)

/-- What a stretch of elements does to the machine, with the elements it did not use. -/
inductive Fed (σ α ω ε : Type*) where
  | starved (s : σ)
  | complete (w : ω) (rest : List α)
  | failed (e : ε) (rest : List α)

variable (absorb : σ → α → Step σ ω ε)

/-- Absorb elements until an output is complete, an error is met or no element is left. -/
@[simp] def feed : σ → List α → Fed σ α ω ε
  | s, [] => .starved s
  | s, a :: as => match absorb s a with
    | .more s' => feed s' as
    | .done w => .complete w as
    | .fail e => .failed e as

/-- How the elements that follow a step are absorbed. -/
def Step.fed : Step σ ω ε → List α → Fed σ α ω ε
  | .more s, as => feed absorb s as
  | .done w, as => .complete w as
  | .fail e, as => .failed e as

/-- All outputs of a stream and the error that ends it, one machine run after another. -/
@[simp] def outputs (init : σ) (final : ε) : σ → List α → List ω × ε
  | _, [] => ([], final)
  | s, a :: as => match absorb s a with
    | .more s' => outputs init final s' as
    | .done w => let r := outputs init final init as; (w :: r.1, r.2)
    | .fail e => ([], e)

variable {absorb}

theorem feed_cons (s : σ) (a : α) (as : List α) :
    feed absorb s (a :: as) = (absorb s a).fed absorb as := by
  rw [feed]; cases absorb s a <;> rfl

theorem feed_append (s : σ) (xs ys : List α) :
    feed absorb s (xs ++ ys) = match feed absorb s xs with
      | .starved s' => feed absorb s' ys
      | .complete w rest => .complete w (rest ++ ys)
      | .failed e rest => .failed e (rest ++ ys) := by
  induction xs generalizing s with
  | nil => rfl
  | cons a xs ih =>
    simp only [List.cons_append, feed]
    cases absorb s a with
    | more s' => exact ih s'
    | done w => rfl
    | fail e => rfl

theorem feed_append_of_starved {s s' : σ} {xs : List α} (h : feed absorb s xs = .starved s')
    (ys : List α) : feed absorb s (xs ++ ys) = feed absorb s' ys := by rw [feed_append, h]

theorem outputs_of_starved {init s s' : σ} {final : ε} {xs ys : List α}
    (h : feed absorb s xs = .starved s') :
    outputs absorb init final s (xs ++ ys) = outputs absorb init final s' ys := by
  induction xs generalizing s with
  | nil => cases h; rfl
  | cons a xs ih =>
    simp only [feed] at h
    cases ha : absorb s a with
    | more t => rw [ha] at h; simpa [outputs, ha] using ih h
    | done w => simp [ha] at h
    | fail e => simp [ha] at h

theorem outputs_of_complete {init s : σ} {final : ε} {w : ω} {xs ys : List α}
    (h : feed absorb s xs = .complete w []) :
    outputs absorb init final s (xs ++ ys) =
      (w :: (outputs absorb init final init ys).1, (outputs absorb init final init ys).2) := by
  induction xs generalizing s with
  | nil => simp [feed] at h
  | cons a xs ih =>
    simp only [feed] at h
    cases ha : absorb s a with
    | more t => rw [ha] at h; simpa [outputs, ha] using ih h
    | done w' =>
      rw [ha] at h
      simp only [Fed.complete.injEq] at h
      obtain ⟨rfl, rfl⟩ := h
      simp [outputs, ha]
    | fail e => simp [ha] at h

theorem outputs_of_failed {init s : σ} {final e : ε} {xs ys : List α}
    (h : feed absorb s xs = .failed e []) :
    outputs absorb init final s (xs ++ ys) = ([], e) := by
  induction xs generalizing s with
  | nil => simp [feed] at h
  | cons a xs ih =>
    simp only [feed] at h
    cases ha : absorb s a with
    | more t => rw [ha] at h; simpa [outputs, ha] using ih h
    | done w => simp [ha] at h
    | fail e' =>
      rw [ha] at h
      simp only [Fed.failed.injEq] at h
      obtain ⟨rfl, rfl⟩ := h
      simp [outputs, ha]

inductive Reply (σ ω ε : Type*) where
  | blocked (s : σ)
  | done (w : ω)
  | failed (e : ε)

section Reader

variable {again : ε} (absorb)

/-- The reply is what the machine makes of the elements taken off the stream. -/
def Agrees (Inv : σ → Prop) (s : σ) (d : Delivery α again) (pre post : List α)
    (turns : List Turn) : Reply σ ω ε → Prop
  | .blocked s' => feed absorb s pre = .starved s' ∧ Inv s' ∧
      Delivery.blocks turns < Delivery.blocks d.turns
  | .done w => feed absorb s pre = .complete w []
  | .failed e => feed absorb s pre = .failed e [] ∨
      (post = [] ∧ e = d.final ∧ ∃ s', feed absorb s pre = .starved s')

variable {absorb} in
theorem Agrees.of_starved {Inv : σ → Prop} {s s' : σ} {d : Delivery α again}
    {pre₁ post₁ pre₂ post₂ : List α} {turns₁ turns₂ : List Turn} {reply : Reply σ ω ε}
    (h₁ : feed absorb s pre₁ = .starved s')
    (hb : Delivery.blocks turns₁ ≤ Delivery.blocks d.turns)
    (h₂ : Agrees absorb Inv s' (d.advance post₁ turns₁) pre₂ post₂ turns₂ reply) :
    Agrees absorb Inv s d (pre₁ ++ pre₂) post₂ turns₂ reply := by
  cases reply with
  | blocked t =>
    obtain ⟨hf, ht, hlt⟩ := h₂
    exact ⟨by rw [feed_append_of_starved h₁, hf], ht, Nat.lt_of_lt_of_le hlt hb⟩
  | done w => exact (feed_append_of_starved h₁ _).trans h₂
  | failed e =>
    rcases h₂ with h₂ | ⟨rfl, he, t, ht⟩
    · exact .inl ((feed_append_of_starved h₁ _).trans h₂)
    · exact .inr ⟨rfl, he, t, (feed_append_of_starved h₁ _).trans ht⟩

/-- Each call absorbs exactly the elements that it takes off the stream. -/
def Refines (Inv : σ → Prop)
    (reader : σ → Delivery α again → Option (Reply σ ω ε × Delivery α again)) : Prop :=
  ∀ s d, Inv s → ∃ reply pre post turns, d.pending = pre ++ post ∧
    Delivery.blocks turns ≤ Delivery.blocks d.turns ∧
    reader s d = some (reply, d.advance post turns) ∧ Agrees absorb Inv s d pre post turns reply

/-- Call a reader again after each interruption, and anew after each output. -/
def session (reader : σ → Delivery α again → Option (Reply σ ω ε × Delivery α again))
    (init : σ) : ℕ → σ → Delivery α again → Option (List ω × ε)
  | 0, _, _ => none
  | fuel + 1, s, d => match reader s d with
    | none => none
    | some (.blocked s', d') => session reader init fuel s' d'
    | some (.done w, d') => (session reader init fuel init d').map fun r => (w :: r.1, r.2)
    | some (.failed e, _) => some ([], e)

variable {absorb} {Inv : σ → Prop}
  {reader : σ → Delivery α again → Option (Reply σ ω ε × Delivery α again)} {init : σ}

/-- A refining reader yields the machine's outputs, whatever the delivery schedule. -/
theorem Refines.session_eq (h : Refines absorb Inv reader) (hi : Inv init) {fuel : ℕ} {s : σ}
    {d : Delivery α again} (hs : Inv s)
    (hf : Delivery.blocks d.turns + d.pending.length < fuel) :
    session reader init fuel s d = some (outputs absorb init d.final s d.pending) := by
  induction fuel generalizing s d with
  | zero => omega
  | succ fuel ih =>
    obtain ⟨reply, pre, post, turns, hp, hb, hr, ha⟩ := h s d hs
    have hlen : d.pending.length = pre.length + post.length := by simp [hp]
    simp only [session, hr]
    cases reply with
    | blocked s' =>
      obtain ⟨hfeed, hs', hlt⟩ := ha
      rw [hp, outputs_of_starved hfeed]
      exact ih hs' (by simp; omega)
    | done w =>
      have hpre : pre ≠ [] := by
        rintro rfl
        simp [Agrees, feed] at ha
      have hpos := List.length_pos_iff.mpr hpre
      have hrest := ih (d := d.advance post turns) hi (by simp; omega)
      rw [hp, outputs_of_complete ha]
      simp [hrest]
    | failed e =>
      rcases ha with ha | ⟨rfl, rfl, s', ha⟩
      · rw [hp, outputs_of_failed ha]
      · rw [hp, outputs_of_starved ha]
        rfl

end Reader

end Resume
