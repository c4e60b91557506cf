import LibPrelude.General.Formula

/-! # Grouping of operators

Operands and parenthesised expressions joined by conjunctions and disjunctions can be
read in two ways: every operator takes all that follows as its right operand, or
conjunctions bind tighter and both operators group to the left. The readings agree
when no conjunction is followed by a disjunction in the same parenthesis, and else the
truth values of the operands can be chosen to tell them apart.
-/

namespace Formula

variable {α β ε : Type*}

inductive Op where
  | and
  | or
  deriving DecidableEq, Repr

def Op.join : Op → Formula α → Formula α → Formula α
  | and => .and
  | or => .or

/-- Join what stands before an operator, if anything does. -/
def Op.joinLeft (op : Op) : Option (Formula α) → Formula α → Formula α
  | none, t => t
  | some u, t => op.join u t

theorem Op.map_join (op : Op) (f : α → β) (t u : Formula α) :
    (op.join t u).map f = op.join (t.map f) (u.map f) := by
  cases op <;> rfl

theorem Op.map_joinLeft (op : Op) (f : α → β) (o : Option (Formula α)) (t : Formula α) :
    (op.joinLeft o t).map f = op.joinLeft (o.map (Formula.map f)) (t.map f) := by
  cases o with
  | none => rfl
  | some u => exact Op.map_join op f u t

/-- An operand or a parenthesised expression, alone or followed by an operator. -/
inductive Infix (α : Type*) where
  | operand (a : α)
  | paren (e : Infix α)
  | operandThen (a : α) (op : Op) (rest : Infix α)
  | parenThen (e : Infix α) (op : Op) (rest : Infix α)
  deriving DecidableEq

namespace Infix

@[simp] def map (f : α → β) : Infix α → Infix β
  | operand a => operand (f a)
  | paren e => paren (map f e)
  | operandThen a op rest => operandThen (f a) op (map f rest)
  | parenThen e op rest => parenThen (map f e) op (map f rest)

/-- The operands replaced from left to right, up to the first failure. -/
@[simp] def traverse (f : α → Except ε β) : Infix α → Except ε (Infix β)
  | operand a =>
    match f a with
    | .error e => .error e
    | .ok b => .ok (operand b)
  | paren e =>
    match traverse f e with
    | .error err => .error err
    | .ok e => .ok (paren e)
  | operandThen a op rest =>
    match f a with
    | .error e => .error e
    | .ok b =>
      match traverse f rest with
      | .error e => .error e
      | .ok rest => .ok (operandThen b op rest)
  | parenThen e op rest =>
    match traverse f e with
    | .error err => .error err
    | .ok e =>
      match traverse f rest with
      | .error e => .error e
      | .ok rest => .ok (parenThen e op rest)

/-- Every operator takes all that follows. -/
@[simp] def rightward : Infix α → Formula α
  | operand a => .atom a
  | paren e => rightward e
  | operandThen a op rest => op.join (.atom a) (rightward rest)
  | parenThen e op rest => op.join (rightward e) (rightward rest)

/-- Conjunctions bind tighter and operators group to the left, after what stands before the last
disjunction and between it and the last conjunction. -/
@[simp] def climb : Option (Formula α) → Option (Formula α) → Infix α → Formula α
  | o, a, operand x => Op.or.joinLeft o (Op.and.joinLeft a (.atom x))
  | o, a, paren e => Op.or.joinLeft o (Op.and.joinLeft a (climb none none e))
  | o, a, operandThen x .and rest => climb o (some (Op.and.joinLeft a (.atom x))) rest
  | o, a, operandThen x .or rest =>
    climb (some (Op.or.joinLeft o (Op.and.joinLeft a (.atom x)))) none rest
  | o, a, parenThen e .and rest => climb o (some (Op.and.joinLeft a (climb none none e))) rest
  | o, a, parenThen e .or rest =>
    climb (some (Op.or.joinLeft o (Op.and.joinLeft a (climb none none e)))) none rest

def byPrecedence (e : Infix α) : Formula α := climb none none e

/-- A disjunction outside parentheses. -/
@[simp] def hasOr : Infix α → Bool
  | operand _ => false
  | paren _ => false
  | operandThen _ op rest => op = .or || hasOr rest
  | parenThen _ op rest => op = .or || hasOr rest

/-- In no parenthesis a conjunction is followed by a disjunction. -/
@[simp] def NoOrAfterAnd : Infix α → Prop
  | operand _ => True
  | paren e => NoOrAfterAnd e
  | operandThen _ op rest => (op = .and → rest.hasOr = false) ∧ NoOrAfterAnd rest
  | parenThen e op rest => NoOrAfterAnd e ∧ (op = .and → rest.hasOr = false) ∧ NoOrAfterAnd rest

section

variable {f : α → Except ε β} {e rest : Infix α} {a : α} {op : Op} {w : Infix β}

theorem traverse_operand_ok :
    (operand a).traverse f = .ok w ↔ ∃ b, f a = .ok b ∧ w = operand b := by
  rw [traverse]
  cases f a <;> simp [eq_comm]

theorem traverse_paren_ok :
    (paren e).traverse f = .ok w ↔ ∃ e', e.traverse f = .ok e' ∧ w = paren e' := by
  rw [traverse]
  cases e.traverse f <;> simp [eq_comm]

theorem traverse_operandThen_ok : (operandThen a op rest).traverse f = .ok w ↔
    ∃ b rest', f a = .ok b ∧ rest.traverse f = .ok rest' ∧ w = operandThen b op rest' := by
  rw [traverse]
  cases f a
  · simp
  · cases rest.traverse f <;> simp [eq_comm]

theorem traverse_parenThen_ok : (parenThen e op rest).traverse f = .ok w ↔
    ∃ e' rest', e.traverse f = .ok e' ∧ rest.traverse f = .ok rest' ∧
      w = parenThen e' op rest' := by
  rw [traverse]
  cases e.traverse f
  · simp
  · cases rest.traverse f <;> simp [eq_comm]

end

end Infix

section

variable {neg : Except ε Bool → Except ε Bool} {v : α → Except ε Bool}

/-- The evaluation of a join. -/
def evalJoin : Op → Except ε Bool → Except ε Bool → Except ε Bool
  | .and, .ok true, r => r
  | .and, r, _ => r
  | .or, .ok false, r => r
  | .or, r, _ => r

theorem eval_join (op : Op) (t u : Formula α) :
    (op.join t u).eval neg v = evalJoin op (t.eval neg v) (u.eval neg v) := by
  cases op
  · rw [Op.join, eval]
    rcases t.eval neg v with e | _ | _ <;> rfl
  · rw [Op.join, eval]
    rcases t.eval neg v with e | _ | _ <;> rfl

theorem evalJoin_assoc (op : Op) (r s t : Except ε Bool) :
    evalJoin op (evalJoin op r s) t = evalJoin op r (evalJoin op s t) := by
  cases op <;> rcases r with e | _ | _ <;> rfl

theorem eval_joinLeft_join (op : Op) (o : Option (Formula α)) (t u : Formula α) :
    (op.join (op.joinLeft o t) u).eval neg v = (op.joinLeft o (op.join t u)).eval neg v := by
  cases o with
  | none => rfl
  | some s => simp only [Op.joinLeft, eval_join, evalJoin_assoc]

theorem eval_joinLeft_congr (op : Op) (o : Option (Formula α)) {t u : Formula α}
    (h : t.eval neg v = u.eval neg v) :
    (op.joinLeft o t).eval neg v = (op.joinLeft o u).eval neg v := by
  cases o with
  | none => exact h
  | some s => simp only [Op.joinLeft, eval_join, h]

theorem eval_join_congr (op : Op) {t t' : Formula α} (u : Formula α)
    (h : t.eval neg v = t'.eval neg v) :
    (op.join t u).eval neg v = (op.join t' u).eval neg v := by
  simp only [eval_join, h]

namespace Infix

/-- The readings of what has no conjunction followed by a disjunction, from the left and after what
stands before it. -/
theorem eval_climb {e : Infix α} (h : e.NoOrAfterAnd) :
    (∀ o, (climb o none e).eval neg v = (Op.or.joinLeft o e.rightward).eval neg v) ∧
    (e.hasOr = false → ∀ o a, (climb o a e).eval neg v =
      (Op.or.joinLeft o (Op.and.joinLeft a e.rightward)).eval neg v) := by
  induction e with
  | operand x => exact ⟨fun o => rfl, fun _ o a => rfl⟩
  | paren e ih =>
    have he := (ih h).1 none
    constructor
    · exact fun o => eval_joinLeft_congr _ _ he
    · exact fun _ o a => eval_joinLeft_congr _ _ (eval_joinLeft_congr _ _ he)
  | operandThen x op rest ih =>
    obtain ⟨hop, hrest⟩ := h
    cases op with
    | and =>
      have hand := (ih hrest).2 (hop rfl)
      constructor
      · exact fun o => hand o (some (.atom x))
      · intro _ o a
        exact (hand o _).trans (eval_joinLeft_congr _ _ (eval_joinLeft_join .and a (.atom x) _))
    | or =>
      constructor
      · exact fun o => ((ih hrest).1 _).trans (eval_joinLeft_join .or o (.atom x) _)
      · intro hor
        simp [hasOr] at hor
  | parenThen e op rest ihe ih =>
    obtain ⟨he, hop, hrest⟩ := h
    have he : (climb none none e).eval neg v = e.rightward.eval neg v := (ihe he).1 none
    have hjoin (op : Op) : (op.join (climb none none e) rest.rightward).eval neg v =
        (op.join e.rightward rest.rightward).eval neg v := eval_join_congr op _ he
    cases op with
    | and =>
      have hand := (ih hrest).2 (hop rfl)
      constructor
      · exact fun o => (hand o _).trans (eval_joinLeft_congr .or o (hjoin .and))
      · intro _ o a
        refine (hand o _).trans (eval_joinLeft_congr .or o ?_)
        exact (eval_joinLeft_join .and a _ _).trans (eval_joinLeft_congr .and a (hjoin .and))
    | or =>
      constructor
      · intro o
        refine ((ih hrest).1 _).trans ((eval_joinLeft_join .or o _ _).trans ?_)
        exact eval_joinLeft_congr .or o (hjoin .or)
      · intro hor
        simp [hasOr] at hor

theorem eval_byPrecedence {e : Infix α} (h : e.NoOrAfterAnd) :
    e.byPrecedence.eval neg v = e.rightward.eval neg v :=
  (eval_climb h).1 none

end Infix

end

namespace Infix

variable {w : α → Bool} {f : α → β}

/-- The conjunction up to the first disjunction. -/
@[simp] def firstGroup (w : α → Bool) : Infix α → Bool
  | operand x => w x
  | paren e => e.byPrecedence.truth w
  | operandThen x .and rest => w x && firstGroup w rest
  | operandThen x .or _ => w x
  | parenThen e .and rest => e.byPrecedence.truth w && firstGroup w rest
  | parenThen e .or _ => e.byPrecedence.truth w

/-- The disjunction of the other conjunctions. -/
@[simp] def otherGroups (w : α → Bool) : Infix α → Bool
  | operand _ => false
  | paren _ => false
  | operandThen _ .and rest => otherGroups w rest
  | operandThen _ .or rest => firstGroup w rest || otherGroups w rest
  | parenThen _ .and rest => otherGroups w rest
  | parenThen _ .or rest => firstGroup w rest || otherGroups w rest

theorem truth_climb (o a : Option (Formula α)) (e : Infix α) : (climb o a e).truth w =
    (o.elim false (truth w) || (a.elim true (truth w) && firstGroup w e) || otherGroups w e) := by
  have hor (o : Option (Formula α)) (t : Formula α) :
      (Op.or.joinLeft o t).truth w = (o.elim false (truth w) || t.truth w) := by
    cases o <;> rfl
  have hand (a : Option (Formula α)) (t : Formula α) :
      (Op.and.joinLeft a t).truth w = (a.elim true (truth w) && t.truth w) := by
    cases a <;> rfl
  induction e generalizing o a with
  | operand x => simp [climb, hor, hand, firstGroup, otherGroups, truth]
  | paren e ih => simp [climb, hor, hand, firstGroup, otherGroups, byPrecedence]
  | operandThen x op rest ih =>
    cases op <;>
      simp [climb, hor, hand, firstGroup, otherGroups, truth, ih, Bool.and_assoc, Bool.or_assoc]
  | parenThen e op rest ihe ih =>
    cases op <;>
      simp [climb, hor, hand, firstGroup, otherGroups, byPrecedence, ih, Bool.and_assoc,
        Bool.or_assoc]

theorem truth_byPrecedence (e : Infix α) :
    e.byPrecedence.truth w = (firstGroup w e || otherGroups w e) := by
  rw [byPrecedence, truth_climb]
  simp

theorem hasOr_map (f : α → β) (e : Infix α) : (e.map f).hasOr = e.hasOr := by
  induction e with
  | operand a => rfl
  | paren e => rfl
  | operandThen a op rest ih => simp only [map, hasOr, ih]
  | parenThen e op rest _ ih => simp only [map, hasOr, ih]

theorem noOrAfterAnd_map (f : α → β) (e : Infix α) :
    (e.map f).NoOrAfterAnd ↔ e.NoOrAfterAnd := by
  induction e with
  | operand a => rfl
  | paren e ih => exact ih
  | operandThen a op rest ih => simp only [map, NoOrAfterAnd, hasOr_map, ih]
  | parenThen e op rest ihe ih => simp only [map, NoOrAfterAnd, hasOr_map, ihe, ih]

theorem traverse_shape {f : α → Except ε β} {e : Infix α} {e' : Infix β}
    (h : e.traverse f = .ok e') : (e'.map fun _ => ()) = e.map fun _ => () := by
  induction e generalizing e' with
  | operand a =>
    obtain ⟨b, -, rfl⟩ := traverse_operand_ok.mp h
    rfl
  | paren e ih =>
    obtain ⟨e'', he, rfl⟩ := traverse_paren_ok.mp h
    rw [map, map, ih he]
  | operandThen a op rest ih =>
    obtain ⟨b, rest', -, hrest, rfl⟩ := traverse_operandThen_ok.mp h
    rw [map, map, ih hrest]
  | parenThen e op rest ihe ih =>
    obtain ⟨e'', rest', he, hrest, rfl⟩ := traverse_parenThen_ok.mp h
    rw [map, map, ihe he, ih hrest]

theorem traverse_map {γ : Type*} {f : β → Except ε γ} {g : α → β} {h : α → γ}
    (hf : ∀ a, f (g a) = .ok (h a)) (e : Infix α) : (e.map g).traverse f = .ok (e.map h) := by
  induction e with
  | operand a => simp only [map, traverse, hf]
  | paren e ih => simp only [map, traverse, ih]
  | operandThen a op rest ih => simp only [map, traverse, hf, ih]
  | parenThen e op rest ihe ih => simp only [map, traverse, ihe, ih]

theorem rightward_map (f : α → β) (e : Infix α) : (e.map f).rightward = e.rightward.map f := by
  induction e with
  | operand a => rfl
  | paren e ih => exact ih
  | operandThen a op rest ih =>
    rw [map, rightward, rightward, ih, Op.map_join]
    rfl
  | parenThen e op rest ihe ih => rw [map, rightward, rightward, ihe, ih, Op.map_join]

theorem climb_map (f : α → β) (o a : Option (Formula α)) (e : Infix α) :
    climb (o.map (Formula.map f)) (a.map (Formula.map f)) (e.map f) = (climb o a e).map f := by
  induction e generalizing o a with
  | operand x => simp only [map, climb, Op.map_joinLeft, Formula.map]
  | paren e ih =>
    have he : climb none none (e.map f) = (climb none none e).map f := ih none none
    simp only [map, climb, Op.map_joinLeft, he]
  | operandThen x op rest ih =>
    cases op with
    | and =>
      simp only [map, climb, ← ih, Option.map_some, Op.map_joinLeft, Formula.map]
    | or =>
      simp only [map, climb, ← ih, Option.map_some, Option.map_none, Op.map_joinLeft, Formula.map]
  | parenThen e op rest ihe ih =>
    have he : climb none none (e.map f) = (climb none none e).map f := ihe none none
    cases op with
    | and => simp only [map, climb, ← ih, Option.map_some, Op.map_joinLeft, he]
    | or => simp only [map, climb, ← ih, Option.map_some, Option.map_none, Op.map_joinLeft, he]

theorem byPrecedence_map (f : α → β) (e : Infix α) :
    (e.map f).byPrecedence = e.byPrecedence.map f :=
  climb_map f none none e

theorem map_map {γ : Type*} (g : β → γ) (f : α → β) (e : Infix α) :
    (e.map f).map g = e.map (g ∘ f) := by
  induction e with
  | operand a => rfl
  | paren e ih => simp [map, ih]
  | operandThen a op rest ih => simp [map, ih]
  | parenThen e op rest ihe ih => simp [map, ihe, ih]

theorem map_unit (s : Infix Unit) : (s.map fun _ => ()) = s := by
  induction s with
  | operand a => rfl
  | paren e ih => rw [map, ih]
  | operandThen a op rest ih => rw [map, ih]
  | parenThen e op rest ihe ih => rw [map, ihe, ih]

theorem truth_const (b : Bool) (e : Infix α) :
    (e.map fun _ => b).rightward.truth id = b ∧ firstGroup id (e.map fun _ => b) = b ∧
      otherGroups id (e.map fun _ => b) = (b && e.hasOr) := by
  induction e with
  | operand x => simp [map, rightward, truth, firstGroup, otherGroups, hasOr]
  | paren e ih =>
    obtain ⟨hr, hf, ho⟩ := ih
    refine ⟨hr, ?_, by simp [map, otherGroups, hasOr]⟩
    rw [map, firstGroup, truth_byPrecedence, hf, ho]
    cases b <;> simp
  | operandThen x op rest ih =>
    obtain ⟨hr, hf, ho⟩ := ih
    cases op <;> cases b <;>
      simp [map, rightward, Op.join, truth, firstGroup, otherGroups, hasOr, hr, hf, ho]
  | parenThen e op rest ihe ih =>
    obtain ⟨hr, hf, ho⟩ := ih
    obtain ⟨hre, hfe, hoe⟩ := ihe
    cases op <;> cases b <;>
      simp [map, rightward, Op.join, truth, firstGroup, otherGroups, hasOr, hr, hf, ho, hre, hfe,
        hoe, truth_byPrecedence]

/-- Operands of which the readings make different truth values. -/
def Distinguishes (e : Infix Bool) : Prop := e.rightward.truth id ≠ e.byPrecedence.truth id

theorem exists_distinguishes {s : Infix Unit} (h : ¬ s.NoOrAfterAnd) :
    ∃ e : Infix Bool, (e.map fun _ => ()) = s ∧ e.Distinguishes := by
  have hshape (b : Bool) (s : Infix Unit) : ((s.map fun _ => b).map fun _ => ()) = s := by
    rw [map_map]
    exact map_unit s
  unfold Distinguishes
  induction s with
  | operand a => exact absurd trivial h
  | paren s ih =>
    obtain ⟨e, he, hd⟩ := ih h
    refine ⟨paren e, by rw [map, he], ?_⟩
    rw [truth_byPrecedence, firstGroup, otherGroups, Bool.or_false]
    exact hd
  | operandThen a op rest ih =>
    cases op with
    | and =>
      by_cases hor : rest.hasOr
      · refine ⟨operandThen false .and (rest.map fun _ => true), by rw [map, hshape], ?_⟩
        obtain ⟨-, -, ho⟩ := truth_const true rest
        rw [truth_byPrecedence]
        simp [rightward, Op.join, truth, firstGroup, otherGroups, ho, hor]
      · obtain ⟨e, rfl, hd⟩ := ih fun hrest => h ⟨fun _ => by simpa using hor, hrest⟩
        refine ⟨operandThen true .and e, rfl, ?_⟩
        rw [truth_byPrecedence] at hd ⊢
        simpa [rightward, Op.join, truth, firstGroup, otherGroups] using hd
    | or =>
      obtain ⟨e, rfl, hd⟩ := ih fun hrest => h ⟨nofun, hrest⟩
      refine ⟨operandThen false .or e, rfl, ?_⟩
      rw [truth_byPrecedence] at hd ⊢
      simpa [rightward, Op.join, truth, firstGroup, otherGroups] using hd
  | parenThen s op rest ihs ih =>
    obtain ⟨hr₁, hf₁, ho₁⟩ := truth_const true rest
    obtain ⟨hr₀, hf₀, ho₀⟩ := truth_const false rest
    obtain ⟨hs₁, hsf₁, hso₁⟩ := truth_const true s
    obtain ⟨hs₀, hsf₀, hso₀⟩ := truth_const false s
    cases op with
    | and =>
      by_cases hor : rest.hasOr
      · refine ⟨parenThen (s.map fun _ => false) .and (rest.map fun _ => true), by
          rw [map, hshape, hshape], ?_⟩
        rw [truth_byPrecedence]
        simp [rightward, Op.join, truth, firstGroup, otherGroups, hs₀, ho₁, hor]
      · have hor : rest.hasOr = false := by simpa using hor
        by_cases hs : s.NoOrAfterAnd
        · obtain ⟨e, rfl, hd⟩ := ih fun hrest => h ⟨hs, fun _ => hor, hrest⟩
          refine ⟨parenThen (s.map fun _ => true) .and e, by rw [map, hshape], ?_⟩
          rw [truth_byPrecedence] at hd ⊢
          simpa [rightward, Op.join, truth, firstGroup, otherGroups, hs₁, truth_byPrecedence,
            hsf₁] using hd
        · obtain ⟨e, rfl, hd⟩ := ihs hs
          refine ⟨parenThen e .and (rest.map fun _ => true), by rw [map, hshape], ?_⟩
          rw [truth_byPrecedence]
          simpa [rightward, Op.join, truth, firstGroup, otherGroups, hr₁, hf₁, ho₁, hor] using hd
    | or =>
      by_cases hs : s.NoOrAfterAnd
      · obtain ⟨e, rfl, hd⟩ := ih fun hrest => h ⟨hs, nofun, hrest⟩
        refine ⟨parenThen (s.map fun _ => false) .or e, by rw [map, hshape], ?_⟩
        rw [truth_byPrecedence] at hd ⊢
        simpa [rightward, Op.join, truth, firstGroup, otherGroups, hs₀, truth_byPrecedence, hsf₀,
          hso₀] using hd
      · obtain ⟨e, rfl, hd⟩ := ihs hs
        refine ⟨parenThen e .or (rest.map fun _ => false), by rw [map, hshape], ?_⟩
        rw [truth_byPrecedence]
        simpa [rightward, Op.join, truth, firstGroup, otherGroups, hr₀, hf₀, ho₀] using hd

end Infix

end Formula
