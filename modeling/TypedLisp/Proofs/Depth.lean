import Mathlib.Data.Nat.Find
import TypedLisp.Proofs.Erasure.Program

/-!
# The depth of evaluation

Evaluation takes the depth that it may go to.  Its outcome does not depend on the depth otherwise:
a computation that is not cut off has the same outcome at every greater depth.  So each computation
settles on one outcome, that which a run without limit has; it settles on being cut off if and only
if that run has no end.
-/

namespace TypedLisp

variable {H α β : Type}

open Outcome (Follows)

/-- A computation that takes a depth keeps its outcome at greater depths, unless it is cut off. -/
def Deepens (f : Nat → Outcome α) : Prop :=
  ∀ depth depth', depth ≤ depth' → f depth ≠ .error .endless → f depth' = f depth

/-- A computation that takes a depth has the outcome `r` at every depth that is enough for it, and
is cut off at all others. -/
def Settles (f : Nat → Outcome α) (r : Outcome α) : Prop :=
  ∃ enough, (∀ depth < enough, f depth = .error .endless) ∧ ∀ depth, enough ≤ depth → f depth = r

section

variable {f : Nat → Outcome α} {g : Nat → Outcome β} {r r' : Outcome α} {t : Outcome β}

theorem Deepens.exists_settles (h : Deepens f) : ∃ r, Settles f r := by
  classical
  by_cases hend : ∃ depth, f depth ≠ .error .endless
  · refine ⟨f (Nat.find hend), Nat.find hend, ?_, ?_⟩
    · intro depth hlt
      exact not_not.1 (Nat.find_min hend hlt)
    · intro depth hle
      exact h _ _ hle (Nat.find_spec hend)
  · exact ⟨.error .endless, 0, nofun, fun depth _ => not_not.1 fun hne => hend ⟨depth, hne⟩⟩

/-- A computation settles on every outcome that it has at some depth but being cut off. -/
lemma Deepens.settles_of_eq (h : Deepens f) {depth : Nat} (hr : f depth = r)
    (hne : r ≠ .error .endless) : Settles f r := by
  obtain ⟨r', enough, hlt, hle⟩ := h.exists_settles
  have hmax : f (max depth enough) = f depth :=
    h depth _ (Nat.le_max_left depth enough) (hr.trans_ne hne)
  obtain rfl : r = r' := hr.symm.trans (hmax.symm.trans (hle _ (Nat.le_max_right depth enough)))
  exact ⟨enough, hlt, hle⟩

lemma Deepens.settles_of_eq_ok (h : Deepens f) {depth : Nat} {a : α} (ha : f depth = .ok a) :
    Settles f (.ok a) :=
  h.settles_of_eq ha nofun

lemma Deepens.settles_of_eq_raised (h : Deepens f) {depth : Nat} {err : Error}
    (herr : f depth = .error (.raised err)) : Settles f (.error (.raised err)) :=
  h.settles_of_eq herr nofun

/-- Two computations that settle have their outcomes at one depth. -/
lemma Settles.exists_depth (hf : Settles f r) (hg : Settles g t) :
    ∃ depth, f depth = r ∧ g depth = t := by
  obtain ⟨enough, -, hr⟩ := hf
  obtain ⟨enough', -, ht⟩ := hg
  exact ⟨max enough enough', hr _ (Nat.le_max_left _ _), ht _ (Nat.le_max_right _ _)⟩

theorem Settles.unique (h : Settles f r) (h' : Settles f r') : r = r' := by
  obtain ⟨depth, hr, hr'⟩ := h.exists_depth h'
  exact hr.symm.trans hr'

/-- A computation has no end if and only if it settles on being cut off. -/
theorem settles_endless_iff : Settles f (.error .endless) ↔ ∀ depth, f depth = .error .endless := by
  constructor
  · rintro ⟨enough, hlt, hle⟩ depth
    rcases Nat.lt_or_ge depth enough with h | h
    · exact hlt depth h
    · exact hle depth h
  · intro h
    exact ⟨0, nofun, fun depth _ => h depth⟩

lemma deepens_of_follows
    (h : ∀ depth depth', depth ≤ depth' → (f depth).Follows True .ofNothing id (f depth')) :
    Deepens f := by
  intro depth depth' hle hne
  have hfollows := h depth depth' hle
  generalize f depth = x, f depth' = y at hfollows hne
  cases hfollows with
  | answer a => rfl
  | error err => rfl
  | endless => rfl
  | cut hT y => exact absurd rfl hne

lemma Deepens.bind {x : Outcome α} {k : Nat → α → Outcome β} (h : ∀ a, Deepens fun d => k d a) :
    Deepens fun depth => x >>= k depth := by
  intro depth depth' hle hne
  cases x with
  | error err => rfl
  | ok a => exact h a depth depth' hle hne

end

/-! ### Without erasure -/

lemma Node.erase_ofNothing_eq_id : (Node.erase .ofNothing : Node H → Node H) = id :=
  funext Node.erase_ofNothing

lemma Scope.erase_ofNothing (scope : Scope H) : Scope.erase .ofNothing scope = scope := by
  rw [Scope.erase, Node.erase_ofNothing_eq_id]
  exact Bindings.ext (List.map_id _)

lemma Outcome.Follows.refl (T : Prop) (x : Outcome α) : x.Follows T .ofNothing id x := by
  rcases x with (err | _) | a
  · exact .error err
  · exact .endless
  · exact .answer a

lemma Host.isBlind_ofNothing [Host H] (T : Prop) : Host.IsBlind H T .ofNothing where
  apply f arg := by
    rw [Node.erase_ofNothing]
    exact .refl T _
  call f args := by
    rw [Node.erase_ofNothing_eq_id, List.map_id]
    exact .refl T _

/-! ### The stages -/

section

variable [Host H] {depth depth' : Nat}

lemma evaluationFollows_of_le (h : depth ≤ depth') :
    EvaluationFollows True .ofNothing (evaluate depth : Scope H → _) (evaluate depth') :=
  evaluate_follows (Host.isBlind_ofNothing True) (.inr ⟨h, trivial⟩)

/-- What an expression evaluates to does not depend on the depth. -/
theorem deepens_evaluate (env : Scope H) (n : Node H) :
    Deepens fun depth => evaluate depth env n := by
  refine deepens_of_follows fun depth depth' hle => ?_
  have h := evaluationFollows_of_le hle env n
  rwa [Node.erase_ofNothing, Scope.erase_ofNothing, Node.erase_ofNothing_eq_id] at h

/-- What a program expands to does not depend on the depth. -/
theorem deepens_expandProgram (consts : Scope H) (forms : List (Node H)) :
    Deepens fun depth => expandProgram depth consts forms := by
  refine deepens_of_follows fun depth depth' hle => ?_
  have hid : (Expansion.erase .ofNothing : Expansion H → Expansion H) = id := by
    funext program
    rw [Expansion.erase, Node.erase_ofNothing_eq_id, Scope.erase_ofNothing, List.map_id]
    rfl
  have h := expandForms_follows (evaluationFollows_of_le hle) consts forms
  rwa [Node.erase_ofNothing_eq_id, Scope.erase_ofNothing, List.map_id, hid] at h

/-- What a source expands to does not depend on the depth. -/
theorem deepens_expandSource (source : String) :
    Deepens fun depth => expandSource (H := H) depth source :=
  Deepens.bind fun forms => deepens_expandProgram .empty forms

end

/-- What a stage shows of a program does not depend on the depth. -/
theorem deepens_render (source moduleName : String) (stage : Stage) (types : Bool) :
    Deepens fun depth => render depth source moduleName stage types := by
  simp only [render_eq]
  refine Deepens.bind fun forms => deepens_of_follows fun depth depth' hle => ?_
  have h := renderForms_follows (T := True) (e := .ofNothing) rfl (.inr ⟨hle, trivial⟩) forms
    moduleName stage types
  rwa [Node.erase_ofNothing_eq_id, List.map_id] at h

end TypedLisp
