import Mathlib.Data.List.Forall2
import Mathlib.Tactic.Lemma

/-!
# Computations that may fail

What it means for a chain of computations to succeed, and for a computation on all items of a list.
-/

namespace TypedLisp
namespace Except

variable {ε α β : Type} {f : α → Except ε β} {p : α → Except ε Bool}

lemma exists_of_bind_eq_ok {x : Except ε α} {g : α → Except ε β} {b : β} (h : x >>= g = .ok b) :
    ∃ a, x = .ok a ∧ g a = .ok b := by
  cases x with
  | error e => cases h
  | ok a => exact ⟨a, rfl, h⟩

/-- A run has one result. -/
lemma eq_of_eq_ok {σ : Type} {x : Except ε (α × σ)} {a b : α} {s s' : σ} (h : x = .ok (a, s))
    (h' : x = .ok (b, s')) : a = b ∧ s = s' :=
  Prod.mk.inj (Except.ok.inj (h.symm.trans h'))

lemma mapM_eq_ok_iff {xs : List α} {ys : List β} :
    xs.mapM f = .ok ys ↔ List.Forall₂ (fun x y => f x = .ok y) xs ys := by
  induction xs generalizing ys with
  | nil => simp [pure, Except.pure, eq_comm]
  | cons x xs ih =>
    rw [List.mapM_cons]
    constructor
    · intro h
      cases hx : f x with
      | error e => simp [hx, bind, Except.bind] at h
      | ok y =>
        cases hxs : xs.mapM f with
        | error e => simp [hx, hxs, bind, Except.bind] at h
        | ok zs =>
          obtain rfl : y :: zs = ys := by
            simpa [hx, hxs, bind, Except.bind, pure, Except.pure] using h
          exact .cons hx (ih.1 hxs)
    · rintro (_ | ⟨hx, hxs⟩)
      simp [hx, ih.2 hxs, bind, Except.bind, pure, Except.pure]

lemma exists_of_mapM_eq_error {xs : List α} {e : ε} (h : xs.mapM f = .error e) :
    ∃ x ∈ xs, f x = .error e := by
  induction xs with
  | nil => simp [pure, Except.pure] at h
  | cons x xs ih =>
    rw [List.mapM_cons] at h
    cases hx : f x with
    | error e' => exact ⟨x, by simp, by simpa [hx, bind, Except.bind] using h⟩
    | ok y =>
      cases hxs : xs.mapM f with
      | ok zs => simp [hx, hxs, bind, Except.bind, pure, Except.pure] at h
      | error e' =>
        obtain rfl : e' = e := by simpa [hx, hxs, bind, Except.bind] using h
        obtain ⟨z, hz, he⟩ := ih hxs
        exact ⟨z, by simp [hz], he⟩

lemma anyM_eq_ok {xs : List α} {b : Bool} (h : xs.anyM p = .ok b) :
    if b then ∃ x ∈ xs, p x = .ok true else ∀ x ∈ xs, p x = .ok false := by
  induction xs with
  | nil =>
    obtain rfl : false = b := by simpa [List.anyM, pure, Except.pure] using h
    simp
  | cons x xs ih =>
    cases hx : p x with
    | error e => simp [List.anyM, hx, bind, Except.bind] at h
    | ok c =>
      cases c with
      | true =>
        obtain rfl : true = b := by
          simpa [List.anyM, hx, bind, Except.bind, pure, Except.pure] using h
        exact ⟨x, by simp, hx⟩
      | false =>
        have := ih (by simpa [List.anyM, hx, bind, Except.bind] using h)
        cases b <;> simp_all

lemma exists_anyM_eq_ok {xs : List α} (h : ∀ x ∈ xs, ∃ b, p x = .ok b) :
    ∃ b, xs.anyM p = .ok b := by
  induction xs with
  | nil => exact ⟨false, rfl⟩
  | cons x xs ih =>
    obtain ⟨c, hc⟩ := h x (by simp)
    cases c with
    | true => exact ⟨true, by simp [List.anyM, hc, bind, Except.bind, pure, Except.pure]⟩
    | false =>
      obtain ⟨b, hb⟩ := ih fun y hy => h y (by simp [hy])
      exact ⟨b, by simp [List.anyM, hc, hb, bind, Except.bind]⟩

end Except

end TypedLisp
