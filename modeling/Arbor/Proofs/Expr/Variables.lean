import Arbor.Expr.Eval
import Arbor.Proofs.Outcome
import Mathlib.Data.List.Basic

/-!
# The names that an expression depends on

An expression is evaluated in an environment for all names, but what comes of it depends on the names
that occur in it alone (`Expr.eval_congr`), and if they are all bound none is ever missed. If one is
missed, evaluation got as far as an occurrence of it, from left to right (`Expr.exists_of_undefined`).
Not all names before that one need be bound: an `&&` whose left operand is false, or an `||` whose left
operand is true, does not look at its right operand, and passes over all the names there
(`Expr.PassedOver`).

Both traversals, that of `Expr.vars` and that of `Expr.eval`, go through the left operand before the
right one. So the occurrences in an expression with two operands are those of the left one and, at
places that are later by their number, those of the right one (`Expr.getElem?_vars_bin`). The induction
goes through for an expression that has a value first (`Expr.settled_of_ok`): all its names are bound or
passed over. This is what is asked of a left operand when it is the right one that misses a name.
-/

namespace Arbor

open Outcome

namespace BinOp

/-- **Short circuit.** With this value on the left, the right operand is not looked at. -/
def ShortCircuits (op : BinOp) (left : Float) : Prop :=
  op = .and ∧ isTruthy left = false ∨ op = .or ∧ isTruthy left = true

/-- Only a short circuit decides without the right operand. -/
theorem shortCircuits_of_decided? {op : BinOp} {left w : Float} (h : op.decided? left = some w) :
    op.ShortCircuits left := by
  cases op with
  | or =>
    obtain ⟨htrue, -⟩ := Option.ite_none_right_eq_some.1 h
    exact .inr ⟨rfl, htrue⟩
  | and =>
    obtain ⟨hfalse, -⟩ := Option.ite_none_left_eq_some.1 h
    exact .inl ⟨rfl, Bool.eq_false_iff.2 hfalse⟩
  -- every other operator looks at both operands
  | _ => cases h

/-- No operator misses a name. -/
theorem apply_ne_undefined (op : BinOp) (a b : Float) (name : String) :
    op.apply a b ≠ .error (.undefined name) := by
  intro h
  cases op with
  -- its error is that of a division by zero
  | div =>
    rw [apply] at h
    split at h
    · cases h
    · cases h
  -- its error is that of a power, whatever the fault
  | pow =>
    obtain ⟨fault, -, h⟩ := mapError_eq_error_iff.1 h
    cases h
  | _ => cases h

end BinOp

namespace Expr

variable {env env' : Env} {e a b : Expr} {op : BinOp} {name : String} {v : Float} {i : Nat}

/-! ### One step of the evaluation -/

/-- A name has the value that is bound to it. -/
theorem eval_var_eq_ok_iff : (var name).eval env = .ok v ↔ env name = some v := by
  rw [eval]
  cases env name with
  | none => simp
  | some w => simp

/-- A name that is not bound is missed, and that is its only error. -/
theorem eval_var_eq_error_iff {err : EvalError} :
    (var name).eval env = .error err ↔ env name = none ∧ err = .undefined name := by
  rw [eval]
  cases env name with
  | none => simp [eq_comm]
  | some w => simp

/-- **The right operand** is not needed, or what comes of it comes of the whole. -/
theorem eval_bin (op : BinOp) (b : Expr) (ha : a.eval env = .ok v) :
    (∃ w, op.ShortCircuits v ∧ (bin op a b).eval env = .ok w) ∨
      (bin op a b).eval env = b.eval env >>= op.apply v := by
  rw [eval, ha, ok_bind]
  -- the operator has decided by the left operand
  cases hdecided : op.decided? v with
  | some w => exact .inl ⟨w, BinOp.shortCircuits_of_decided? hdecided, rfl⟩
  | none => exact .inr rfl

/-! ### Places of names -/

/-- **Passed over.** The name at place `i`, counted from the left, stands in the right operand of an
`&&` or `||` that is short-circuited. -/
inductive PassedOver (env : Env) : Expr → Nat → Prop
  | neg {e : Expr} {i : Nat} (inner : PassedOver env e i) : PassedOver env (neg e) i
  | not {e : Expr} {i : Nat} (inner : PassedOver env e i) : PassedOver env (not e) i
  | left {op : BinOp} {a b : Expr} {i : Nat} (inner : PassedOver env a i) :
      PassedOver env (bin op a b) i
  | right {op : BinOp} {a b : Expr} {i : Nat} (inner : PassedOver env b i) :
      PassedOver env (bin op a b) (a.vars.length + i)
  | shortCircuit {op : BinOp} {a b : Expr} {v : Float} {i : Nat} (value : a.eval env = .ok v)
      (decides : op.ShortCircuits v) (inside : i < b.vars.length) :
      PassedOver env (bin op a b) (a.vars.length + i)

/-- The name at place `i`, if there is one, is bound or passed over. -/
def Settled (env : Env) (e : Expr) (i : Nat) : Prop :=
  ∀ name, e.vars[i]? = some name → env name ≠ none ∨ e.PassedOver env i

/-- A place in an expression with two operands is one in the left or, counted on, one in the right. -/
theorem getElem?_vars_bin :
    (bin op a b).vars[i]? = some name ↔
      a.vars[i]? = some name ∨ ∃ j, i = a.vars.length + j ∧ b.vars[j]? = some name := by
  rw [vars]
  rcases Nat.lt_or_ge i a.vars.length with hi | hi
  · -- the place is one of the left operand
    rw [List.getElem?_append_left hi]
    refine ⟨.inl, fun h => h.resolve_right ?_⟩
    rintro ⟨j, rfl, -⟩
    omega
  · -- the place is not, and is counted on from there
    rw [List.getElem?_append_right hi, List.getElem?_eq_none hi]
    constructor
    · intro h
      exact .inr ⟨i - a.vars.length, by omega, h⟩
    · rintro (h | ⟨j, rfl, hj⟩)
      · cases h
      · rwa [Nat.add_sub_cancel_left]

/-- Minus leaves the places of names where they are. -/
theorem Settled.neg (h : e.Settled env i) : (neg e).Settled env i :=
  fun name hname => (h name hname).imp_right .neg

/-- So does a negation. -/
theorem Settled.not (h : e.Settled env i) : (not e).Settled env i :=
  fun name hname => (h name hname).imp_right .not

/-- The places of both operands, as far as they lie before the place `a.vars.length + i`. -/
theorem Settled.bin (ha : ∀ j, a.Settled env j)
    (hb : ∀ j < i, ∀ name, b.vars[j]? = some name →
      env name ≠ none ∨ (bin op a b).PassedOver env (a.vars.length + j)) :
    ∀ j < a.vars.length + i, (bin op a b).Settled env j := by
  intro j hj name hname
  -- a place of the left operand is settled there; one of the right operand lies before `i` there
  rcases getElem?_vars_bin.1 hname with hleft | ⟨k, rfl, hright⟩
  · exact (ha j name hleft).imp_right .left
  · exact hb k (by omega) name hright

/-! ### The evaluation as far as it goes -/

/-- **Congruence.** Only the names that occur in an expression matter. -/
theorem eval_congr (h : ∀ name ∈ e.vars, env name = env' name) : e.eval env = e.eval env' := by
  induction e with
  | num | truth => rfl
  | var name => rw [eval, eval, h name List.mem_cons_self]
  | neg e ih => rw [eval, eval, ih h]
  | not e ih => rw [eval, eval, ih h]
  | bin op a b iha ihb =>
    have ha : a.eval env = a.eval env' := iha fun name hname => h name (List.mem_append_left _ hname)
    have hb : b.eval env = b.eval env' := ihb fun name hname => h name (List.mem_append_right _ hname)
    rw [eval, eval, ha, hb]

/-- **With a value** every name is bound or passed over. -/
theorem settled_of_ok (h : e.eval env = .ok v) (i : Nat) : e.Settled env i := by
  induction e generalizing v i with
  | num | truth =>
    intro name hname
    cases hname
  | var name =>
    intro name' hname
    -- the only name is the variable itself
    obtain rfl := List.mem_singleton.1 (List.mem_of_getElem? hname)
    refine .inl ?_
    rw [eval_var_eq_ok_iff.1 h]
    exact Option.some_ne_none v
  | neg e ih =>
    obtain ⟨w, hw, -⟩ := bind_eq_ok_iff.1 h
    exact (ih hw i).neg
  | not e ih =>
    obtain ⟨w, hw, -⟩ := bind_eq_ok_iff.1 h
    exact (ih hw i).not
  | bin op a b iha ihb =>
    obtain ⟨w, hw, -⟩ := bind_eq_ok_iff.1 h
    -- every place lies before some place of the right operand
    refine Settled.bin (i := i + 1) (iha hw) (fun j _ name hname => ?_) i (by omega)
    -- a short circuit passes over all of the right operand, and without one it has a value too
    rcases eval_bin op b hw with ⟨-, hcircuit, -⟩ | heval
    · exact .inr (.shortCircuit hw hcircuit (List.getElem?_eq_some_iff.1 hname).1)
    · rw [heval] at h
      obtain ⟨u, hu, -⟩ := bind_eq_ok_iff.1 h
      exact (ihb hu j name hname).imp_right .right

/-- **A name that is missed** occurs, it is free, and all before that occurrence are bound or passed
over. -/
theorem exists_of_undefined (h : e.eval env = .error (.undefined name)) :
    env name = none ∧ ∃ i : Nat, e.vars[i]? = some name ∧ ∀ j < i, e.Settled env j := by
  induction e with
  | num | truth => cases h
  | var name' =>
    obtain ⟨hfree, heq⟩ := eval_var_eq_error_iff.1 h
    obtain rfl := EvalError.undefined.inj heq
    refine ⟨hfree, 0, rfl, ?_⟩
    intro j hj
    -- no place lies before the first
    omega
  | neg e ih =>
    -- the operand has missed the name, as minus of a value has a value
    rcases bind_eq_error_iff.1 h with h | ⟨w, -, h⟩
    · obtain ⟨hfree, i, hi, hbefore⟩ := ih h
      exact ⟨hfree, i, hi, fun j hj => (hbefore j hj).neg⟩
    · cases h
  | not e ih =>
    rcases bind_eq_error_iff.1 h with h | ⟨w, -, h⟩
    · obtain ⟨hfree, i, hi, hbefore⟩ := ih h
      exact ⟨hfree, i, hi, fun j hj => (hbefore j hj).not⟩
    · cases h
  | bin op a b iha ihb =>
    cases ha : a.eval env with
    -- the left operand misses it, so no place of the right one lies before
    | error err =>
      rw [eval, ha, error_bind] at h
      rw [ha, Except.error.inj h] at iha
      obtain ⟨hfree, i, hi, hbefore⟩ := iha rfl
      refine ⟨hfree, i, getElem?_vars_bin.2 (.inl hi), fun j hj name' hname => ?_⟩
      rcases getElem?_vars_bin.1 hname with hleft | ⟨k, rfl, -⟩
      · exact (hbefore j hj name' hleft).imp_right .left
      · have := (List.getElem?_eq_some_iff.1 hi).1
        omega
    | ok v =>
      -- the left operand has a value, and all its places are settled
      rcases eval_bin op b ha with ⟨w, -, heval⟩ | heval
      · rw [heval] at h
        cases h
      · rw [heval] at h
        rcases bind_eq_error_iff.1 h with h | ⟨u, -, h⟩
        · obtain ⟨hfree, i, hi, hbefore⟩ := ihb h
          refine ⟨hfree, a.vars.length + i, getElem?_vars_bin.2 (.inr ⟨i, rfl, hi⟩), ?_⟩
          exact Settled.bin (settled_of_ok ha) fun j hj name' hname =>
            (hbefore j hj name' hname).imp_right .right
        · -- no operator misses a name
          exact absurd h (op.apply_ne_undefined v u name)

/-- **An expression depends on its names.** Where two environments give the same numbers to the names
that occur in it, and leave the same of them free, it has the same value or the same error. Where they
are all bound, none is missed. If one is missed, it occurs, it is free, and every name before that
occurrence is bound or stands in the right operand of an `&&` or `||` that is short-circuited. -/
theorem eval_vars (e : Expr) :
    (∀ env env' : Env, (∀ name ∈ e.vars, env name = env' name) → e.eval env = e.eval env') ∧
    (∀ env : Env, (∀ name ∈ e.vars, env name ≠ none) →
      ∀ name, e.eval env ≠ .error (.undefined name)) ∧
    ∀ (env : Env) (name : String), e.eval env = .error (.undefined name) →
      env name = none ∧ ∃ i : Nat, e.vars[i]? = some name ∧
        ∀ j < i, ∀ other, e.vars[j]? = some other → env other ≠ none ∨ e.PassedOver env j := by
  refine ⟨fun env env' => eval_congr, ?_, fun env name => exists_of_undefined⟩
  intro env hbound name h
  -- the name would occur, and it would be free
  obtain ⟨hfree, i, hi, -⟩ := exists_of_undefined h
  exact hbound name (List.mem_of_getElem? hi) hfree

/-- In `x != 0 && 1 / y > 2 || z`, with `x` zero, `y` is passed over and `z` is missed, whatever is bound
besides. -/
theorem eval_vars_alternative :
    let quotient : Expr := .bin .gt (.bin .div (.num 1.0) (.var "y")) (.num 2.0)
    let e : Expr := .bin .or (.bin .and (.bin .ne (.var "x") (.num 0.0)) quotient) (.var "z")
    let env := Env.ofList [("x", 0.0)]
    e.vars = ["x", "y", "z"] ∧ e.eval env = .error (.undefined "z") ∧ e.PassedOver env 1 ∧
      e.eval (Env.ofList [("x", 0.0), ("w", 1.0)]) = e.eval env ∧
      ∀ name, e.eval (Env.ofList [("x", 0.0), ("y", 0.0), ("z", 1.0)]) ≠ .error (.undefined name) := by
  intro quotient e env
  have hmissed : e.eval env = .error (.undefined "z") := by decide +kernel
  obtain ⟨hcongr, hbound, hundefined⟩ := eval_vars e
  have hsame : ∀ name ∈ e.vars, Env.ofList [("x", 0.0), ("w", 1.0)] name = env name := by
    decide +kernel
  have hall : ∀ name ∈ e.vars, Env.ofList [("x", 0.0), ("y", 0.0), ("z", 1.0)] name ≠ none := by
    decide +kernel
  refine ⟨rfl, hmissed, ?_, hcongr _ _ hsame, hbound _ hall⟩
  obtain ⟨-, i, hi, hbefore⟩ := hundefined env "z" hmissed
  -- the missed name is the third, so `y` stands before it, and is not bound
  have hlate : 1 < i := by
    match i, hi with
    | 0, hi => exact absurd hi (by decide)
    | 1, hi => exact absurd hi (by decide)
    | i + 2, _ => omega
  exact (hbefore 1 hlate "y" rfl).resolve_left fun h => h rfl

end Expr

end Arbor
