import Mathlib.Tactic.Lemma
import TypedLisp.Proofs.FirstOrder.Term

/-!
# The meaning of first-order expressions

A big-step semantics that knows neither nodes nor substitution.  An environment binds the parameters
of functions to values, and the names of local definitions to expressions that are not evaluated
yet, each with the environment that it belongs to.  Arithmetic is that of the integers; a literal
and an answer have to fit in 64 bits.
-/

namespace TypedLisp
namespace FirstOrder

/-! ### Arithmetic -/

/-- What an expression stands for. -/
inductive Val where
  | int (n : Int)
  | bool (b : Bool)
deriving DecidableEq, Repr

/-- Whether a condition holds that has this value. -/
def Val.holds : Val → Bool
  | int n => n ≠ 0
  | bool b => b

/-- An integer fits in 64 bits. -/
def InRange (n : Int) : Prop :=
  -2 ^ 63 ≤ n ∧ n < 2 ^ 63

instance (n : Int) : Decidable (InRange n) :=
  inferInstanceAs (Decidable (_ ∧ _))

/-- An integer as a value, if it fits. -/
def number? (n : Int) : Option Val :=
  if InRange n then some (.int n) else none

/-- The quotient, truncated toward zero. -/
def quotient (a b : Int) : Int :=
  a.sign * b.sign * (a.natAbs / b.natAbs : Nat)

/-- The remainder, with the sign of the dividend. -/
def remainder (a b : Int) : Int :=
  a.sign * (a.natAbs % b.natAbs : Nat)

/-- The value of an operator on integers, if it has one. -/
def answer? (op : Operator) (a b : Int) : Option Val :=
  match op with
  | .add => number? (a + b)
  | .sub => number? (a - b)
  | .mul => number? (a * b)
  | .div => if b = 0 then none else number? (quotient a b)
  | .mod => if b = 0 ∨ ¬ InRange (quotient a b) then none else number? (remainder a b)
  | .eq => some (.bool (a = b))
  | .lt => some (.bool (a < b))
  | .le => some (.bool (a ≤ b))
  | .gt => some (.bool (b < a))
  | .ge => some (.bool (b ≤ a))

/-! ### Evaluation -/

/-- What the variables of an expression are bound to; the latest binding comes first. -/
inductive Env where
  | empty
  /-- A parameter with its value. -/
  | value (x : String) (v : Val) (ρ : Env)
  /-- A local definition: its expression, which is not evaluated, with the environment of that. -/
  | delayed (x : String) (t : Term) (home ρ : Env)

/-- What a variable is bound to. -/
inductive Bound where
  | value (v : Val)
  | delayed (t : Term) (home : Env)

/-- What a variable is bound to in an environment. -/
def Env.find? : Env → String → Option Bound
  | .empty, _ => none
  | .value y v ρ, x => if x = y then some (.value v) else ρ.find? x
  | .delayed y t home ρ, x => if x = y then some (.delayed t home) else ρ.find? x

mutual

/-- `Gives ρ t v`: in the environment `ρ` the expression `t` has the value `v`. -/
inductive Gives : Env → Term → Val → Prop where
  | literal {ρ : Env} {l : Literal} (h : InRange l.number) : Gives ρ (.literal l) (.int l.number)
  | value {ρ : Env} {x : String} {v : Val} (h : ρ.find? x = some (.value v)) : Gives ρ (.var x) v
  | delayed {ρ home : Env} {x : String} {t : Term} {v : Val}
    (h : ρ.find? x = some (.delayed t home)) (ht : Gives home t v) : Gives ρ (.var x) v
  | op {ρ : Env} {op : Operator} {left right : Term} {m n : Int} {v : Val}
    (hleft : Gives ρ left (.int m)) (hright : Gives ρ right (.int n))
    (h : answer? op m n = some v) : Gives ρ (.op op left right) v
  | yes {ρ : Env} {condition yes no : Term} {u v : Val} (hcondition : Gives ρ condition u)
    (h : u.holds = true) (hyes : Gives ρ yes v) : Gives ρ (.cond condition yes no) v
  | no {ρ : Env} {condition yes no : Term} {u v : Val} (hcondition : Gives ρ condition u)
    (h : u.holds = false) (hno : Gives ρ no v) : Gives ρ (.cond condition yes no) v
  | letIn {ρ : Env} {x : String} {value body : Term} {v : Val}
    (h : Gives (.delayed x value ρ ρ) body v) : Gives ρ (.letIn x value body) v
  | call {ρ ρ₁ : Env} {args : Args} {body : Term} {v : Val} (hargs : Binds ρ args ρ ρ₁)
    (hbody : Gives ρ₁ body v) : Gives ρ (.call args body) v

/-- `Binds ρ args ρ₁ ρ₂`: when the arguments are evaluated in `ρ`, the parameters are bound to their
values in `ρ₂`, which is `ρ₁` otherwise. -/
inductive Binds : Env → Args → Env → Env → Prop where
  | last {ρ ρ₁ : Env} {x : String} {arg : Term} {v : Val} (h : Gives ρ arg v) :
    Binds ρ (.last x arg) ρ₁ (.value x v ρ₁)
  | cons {ρ ρ₁ ρ₂ : Env} {x : String} {arg : Term} {args : Args} {v : Val} (h : Gives ρ arg v)
    (hargs : Binds ρ args (.value x v ρ₁) ρ₂) : Binds ρ (.cons x arg args) ρ₁ ρ₂

end

variable {ρ ρ₁ ρ₂ home : Env} {t left right condition yes no value body arg : Term} {args : Args}
  {op : Operator} {l : Literal} {x y : String} {u v : Val} {m n : Int}

/-! ### One rule at a time -/

lemma gives_literal_iff : Gives ρ (.literal l) v ↔ number? l.number = some v := by
  rw [number?]
  constructor
  · rintro ⟨h⟩
    rw [if_pos h]
  · intro h
    split at h
    · next hrange =>
      obtain rfl := Option.some.inj h
      exact .literal hrange
    · cases h

lemma gives_op_iff :
    Gives ρ (.op op left right) v ↔
      ∃ m n, Gives ρ left (.int m) ∧ Gives ρ right (.int n) ∧ answer? op m n = some v := by
  constructor
  · intro h
    cases h with
    | op hleft hright h => exact ⟨_, _, hleft, hright, h⟩
  · rintro ⟨m, n, hleft, hright, h⟩
    exact .op hleft hright h

lemma gives_cond_iff :
    Gives ρ (.cond condition yes no) v ↔
      ∃ u, Gives ρ condition u ∧ Gives ρ (if u.holds then yes else no) v := by
  constructor
  · intro h
    cases h with
    | yes hcondition h hyes => exact ⟨_, hcondition, by rwa [if_pos h]⟩
    | no hcondition h hno => exact ⟨_, hcondition, by rwa [if_neg (Bool.eq_false_iff.1 h)]⟩
  · rintro ⟨u, hcondition, h⟩
    split at h
    · next hu => exact .yes hcondition hu h
    · next hu => exact .no hcondition (Bool.eq_false_iff.2 hu) h

lemma gives_letIn_iff :
    Gives ρ (.letIn x value body) v ↔ Gives (.delayed x value ρ ρ) body v := by
  constructor
  · intro h
    cases h with
    | letIn h => exact h
  · exact .letIn

lemma gives_call_iff :
    Gives ρ (.call args body) v ↔ ∃ ρ₁, Binds ρ args ρ ρ₁ ∧ Gives ρ₁ body v := by
  constructor
  · intro h
    cases h with
    | call hargs hbody => exact ⟨_, hargs, hbody⟩
  · rintro ⟨ρ₁, hargs, hbody⟩
    exact .call hargs hbody

/-- The last parameter is bound, and the body evaluated. -/
lemma binds_last_iff :
    (∃ ρ₂, Binds ρ (.last x arg) ρ₁ ρ₂ ∧ Gives ρ₂ body v) ↔
      ∃ u, Gives ρ arg u ∧ Gives (.value x u ρ₁) body v := by
  constructor
  · rintro ⟨ρ₂, hargs, hbody⟩
    cases hargs with
    | last h => exact ⟨_, h, hbody⟩
  · rintro ⟨u, h, hbody⟩
    exact ⟨_, .last h, hbody⟩

/-- A parameter is bound before the others. -/
lemma binds_cons_iff :
    (∃ ρ₂, Binds ρ (.cons x arg args) ρ₁ ρ₂ ∧ Gives ρ₂ body v) ↔
      ∃ u, Gives ρ arg u ∧ ∃ ρ₂, Binds ρ args (.value x u ρ₁) ρ₂ ∧ Gives ρ₂ body v := by
  constructor
  · rintro ⟨ρ₂, hargs, hbody⟩
    cases hargs with
    | cons h hargs => exact ⟨_, h, ρ₂, hargs, hbody⟩
  · rintro ⟨u, h, ρ₂, hargs, hbody⟩
    exact ⟨ρ₂, .cons h hargs, hbody⟩

/-! ### Variables -/

lemma gives_var_iff :
    Gives ρ (.var x) v ↔ ρ.find? x = some (.value v) ∨
      ∃ t home, ρ.find? x = some (.delayed t home) ∧ Gives home t v := by
  constructor
  · intro h
    cases h with
    | value h => exact .inl h
    | delayed h ht => exact .inr ⟨_, _, h, ht⟩
  · rintro (h | ⟨t, home, h, ht⟩)
    · exact .value h
    · exact .delayed h ht

lemma gives_var_value_self : Gives (.value x u ρ) (.var x) v ↔ v = u := by
  simp [gives_var_iff, Env.find?, eq_comm]

lemma gives_var_value_of_ne (h : y ≠ x) :
    Gives (.value x u ρ) (.var y) v ↔ Gives ρ (.var y) v := by
  simp [gives_var_iff, Env.find?, h]

lemma gives_var_delayed_self : Gives (.delayed x t home ρ) (.var x) v ↔ Gives home t v := by
  simp [gives_var_iff, Env.find?]

lemma gives_var_delayed_of_ne (h : y ≠ x) :
    Gives (.delayed x t home ρ) (.var y) v ↔ Gives ρ (.var y) v := by
  simp [gives_var_iff, Env.find?, h]

end FirstOrder
end TypedLisp
