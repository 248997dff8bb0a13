import Arbor.Expr.Eval
import Arbor.Proofs.Numeral.Zeros

/-!
# Expressions that agree

Two expressions agree (`Expr.Agrees`) when they are the same tree with the same numbers in it, where
zeros count as the same. In every environment they then have the same outcome (`Agrees.eval`): the
same value, again up to the sign of zero, or the same error. Errors are the same when they are of one
kind and about the same names and numbers (`EvalError.Same`).
-/

namespace Arbor

open Numeral (Same)
open Outcome (Corresponds)

/-! ### Outcomes -/

/-- Errors of one kind, about the same names and numbers. -/
inductive EvalError.Same : EvalError → EvalError → Prop
  | undefined (name : String) : EvalError.Same (.undefined name) (.undefined name)
  | divisionByZero {a a' : Float} (numerators : Numeral.Same a a') :
      EvalError.Same (.divisionByZero a) (.divisionByZero a')
  | power {a a' b b' : Float} (fault : Numeral.PowerFault) (bases : Numeral.Same a a')
      (exponents : Numeral.Same b b') : EvalError.Same (.power a b fault) (.power a' b' fault)

/-- An error is the same as itself. -/
theorem EvalError.Same.refl (e : EvalError) : e.Same e := by
  cases e with
  | undefined name => exact .undefined name
  | divisionByZero a => exact .divisionByZero (.refl a)
  | power a b fault => exact .power fault (.refl a) (.refl b)

/-- **The same outcome**: the same value or the same error. -/
abbrev SameOutcome : Except EvalError Float → Except EvalError Float → Prop :=
  Corresponds EvalError.Same Same

section Operators

variable {a a' b b' : Float}

/-- Numbers that are the same count as true or not together. -/
theorem Numeral.Same.isTruthy (h : Same a a') : isTruthy a = isTruthy a' := by
  unfold Arbor.isTruthy
  rw [bne, bne, h.beq_eq (.refl 0.0)]

/-- What the left operand decides does not depend on the sign of zero. -/
theorem BinOp.decided?_same (op : BinOp) (h : Same a a') : op.decided? a = op.decided? a' := by
  -- only these two look at the left operand, and at no more of it than whether it counts as true
  cases op with
  | or | and => simp only [decided?, h.isTruthy]
  | _ => rfl

/-- **Operators** take numbers that are the same to outcomes that are. -/
theorem BinOp.apply_same (op : BinOp) (ha : Same a a') (hb : Same b b') :
    SameOutcome (op.apply a b) (op.apply a' b') := by
  -- an answer is the same if the question is
  have hanswer : ∀ {p q : Bool}, p = q → SameOutcome (.ok (Expr.ofBool p)) (.ok (Expr.ofBool q)) := by
    rintro p _ rfl
    exact .ok (.refl _)
  cases op with
  -- answers of comparisons and of logic
  | or | and => exact hanswer (by rw [ha.isTruthy, hb.isTruthy])
  | lt => exact hanswer (decide_eq_decide.2 (ha.lt_iff hb))
  | le => exact hanswer (decide_eq_decide.2 (ha.le_iff hb))
  | gt => exact hanswer (decide_eq_decide.2 (hb.lt_iff ha))
  | ge => exact hanswer (decide_eq_decide.2 (hb.le_iff ha))
  | eq => exact hanswer (ha.beq_eq hb)
  | ne => exact hanswer (by rw [bne, bne, ha.beq_eq hb])
  -- sums, differences and products have a value always
  | add => exact .ok (ha.add hb)
  | sub => exact .ok (ha.sub hb)
  | mul => exact .ok (ha.mul hb)
  | div =>
    -- a quotient asks first whether its denominator is zero
    change SameOutcome (if b == 0.0 then _ else _) (if b' == 0.0 then _ else _)
    rw [← hb.beq_eq (.refl 0.0)]
    split
    · exact .error (.divisionByZero ha)
    · next hne => exact .ok (ha.div hb (Bool.eq_false_iff.2 hne))
  | pow => exact (ha.power hb).mapError fun d e hde => hde ▸ .power d ha hb

end Operators

namespace Expr

/-! ### Agreement -/

/-- **Agreement.** The same tree with the same numbers. -/
inductive Agrees : Expr → Expr → Prop
  | num {v w : Float} (numbers : Same v w) : Agrees (.num v) (.num w)
  | truth (b : Bool) : Agrees (.truth b) (.truth b)
  | var (name : String) : Agrees (.var name) (.var name)
  | neg {a b : Expr} (operands : Agrees a b) : Agrees (.neg a) (.neg b)
  | not {a b : Expr} (operands : Agrees a b) : Agrees (.not a) (.not b)
  | bin (op : BinOp) {a a' b b' : Expr} (left : Agrees a a') (right : Agrees b b') :
      Agrees (.bin op a b) (.bin op a' b')

/-- The numbers in an expression, from left to right. The truth values are none of them. -/
def literals : Expr → List Float
  | num v => [v]
  | truth _ | var _ => []
  | neg e | not e => e.literals
  | bin _ a b => a.literals ++ b.literals

/-- **Evaluation** does not tell apart expressions that agree. -/
theorem Agrees.eval {e f : Expr} (h : Agrees e f) (env : Env) :
    SameOutcome (e.eval env) (f.eval env) := by
  induction h with
  | num numbers => exact .ok numbers
  | truth b => exact .ok (.refl _)
  | var name =>
    exact .refl EvalError.Same.refl Same.refl _
  | neg _ ih => exact ih.bind fun a b hab => .ok hab.neg
  | not _ ih => exact ih.bind fun a b hab => .ok (.inl (by rw [hab.isTruthy]))
  | bin op _ _ ihl ihr =>
    refine ihl.bind fun a a' ha => ?_
    -- the left operand may leave nothing to the right one
    rw [op.decided?_same ha]
    split
    · exact .ok (.refl _)
    · exact ihr.bind fun b b' hb => op.apply_same ha hb

/-- An expression agrees with itself. -/
theorem Agrees.refl (e : Expr) : Agrees e e := by
  induction e with
  | num v => exact .num (.refl v)
  | truth b => exact .truth b
  | var name => exact .var name
  | neg _ ih => exact .neg ih
  | not _ ih => exact .not ih
  | bin op _ _ iha ihb => exact .bin op iha ihb

/-- Expressions that agree are equal, where the numbers in them are defined. -/
theorem Agrees.beq {e f : Expr} (h : Agrees e f) (hf : ∀ v ∈ f.literals, v.isNaN = false) :
    (e == f) = true := by
  induction h with
  -- numbers that are the same are equal, but for those that are undefined
  | num numbers => exact numbers.beq (hf _ (List.mem_singleton.2 rfl))
  | truth b => exact beq_self_eq_true b
  | var name => exact beq_self_eq_true name
  | neg _ ih => exact ih hf
  | not _ ih => exact ih hf
  | @bin op a a' b b' _ _ ihl ihr =>
    -- equality goes through the tree, and compares the operators on the way
    have hbin : (Expr.bin op a b == .bin op a' b') = (op == op && (a == a' && b == b')) := rfl
    rw [hbin, ihl fun v hv => hf v (List.mem_append_left _ hv),
      ihr fun v hv => hf v (List.mem_append_right _ hv), beq_self_eq_true]
    rfl

end Expr

end Arbor
