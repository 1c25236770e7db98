import TypedLisp.Proofs.Bindings
import TypedLisp.Proofs.Depth
import TypedLisp.Proofs.Typing.Principality

/-!
# Evaluation without types

Types have no effect on what a program computes.  Inference changes nothing in a node but its types,
and evaluation looks at no type.  So the forms of a program have the same values, up to the types in
them, and the same errors, whether the program has been typed or not.
-/

namespace TypedLisp

variable {H : Type}

open Outcome (Follows)

/-! ### What inference leaves -/

lemma Typing.Alike.withoutTypes_eq {S : Node H → Node H → Prop} {n m : Node H} (h : Alike S n m) :
    n.withoutTypes = m.withoutTypes := by
  induction n using Node.induction generalizing m with
  | list items span type ih =>
    obtain ⟨ms, type', rfl, -, hitems⟩ := h.exists_list
    have hmap : items.map Node.withoutTypes = ms.map Node.withoutTypes := by
      rw [← List.forall₂_eq_eq_eq, List.forall₂_map_left_iff, List.forall₂_map_right_iff]
      exact forall₂_imp_of_mem (fun n hn _ _ h => ih n hn h) hitems
    rw [Node.withoutTypes, Node.withoutTypes, Node.withoutTypesAll_eq_map,
      Node.withoutTypesAll_eq_map, hmap]
  | leaf kind span type hkind =>
    obtain ⟨type', rfl, -⟩ := h.exists_leaf hkind
    cases kind <;> rfl

lemma withoutTypes_of_infer {n t : Node H} (h : Typing.infer n = .ok t) :
    t.withoutTypes = n.withoutTypes :=
  (Typing.isTyping_of_infer h).1.withoutTypes_eq.symm

/-- **Inference only fills in types.**  What it gives is the node that it was given, item for item
and span for span.  Only types differ: where nothing is quoted, the type of a node is the one that
the node had, with something in the place of some of its unknowns; below a quotation no type has
changed at all. -/
theorem fills_of_infer {n t : Node H} (h : Typing.infer n = .ok t) :
    t.withoutTypes = n.withoutTypes ∧ Typing.Fills n t :=
  ⟨withoutTypes_of_infer h, (Typing.isTyping_of_infer h).1⟩

/-- The function `(lambda (f: (-> int [null])) (f '(a: t)): r)`. -/
def quotingFunction : Node Empty :=
  let f := (Node.atom "f" none).withType (.list [.atom "->" none, .atom "int" none, .null] none)
  let quotation := .quoted (.list [(Node.atom "a" none).withType (.atom "t" none)] none) none
  .list [.atom "lambda" none, .list [f] none,
    (Node.list [.atom "f" none, quotation] none).withType (.atom "r" none)] none

/-- The function with the types that follow: the quotation itself is typed, what is in it is not. -/
def quotingFunctionTyped : Node Empty :=
  let int := .atom "int" none
  let f := (Node.atom "f" none).withType (.list [.atom "->" none, int, .atom "r" none] none)
  let quotation := .quoted (.list [(Node.atom "a" none).withType (.atom "t" none)] none) none
  (Node.list [.atom "lambda" none, .list [f] none,
      (Node.list [f, Node.withType quotation int] none).withType (.atom "r" none)] none).withType
    (.list [.atom "->" none, f.type, .atom "r" none] none)

theorem fills_of_infer_quotingFunction :
    Typing.infer quotingFunction = .ok quotingFunctionTyped ∧
      quotingFunctionTyped.withoutTypes = quotingFunction.withoutTypes ∧
      Typing.Fills quotingFunction quotingFunctionTyped :=
  have h : Typing.infer quotingFunction = .ok quotingFunctionTyped := by cbv
  ⟨h, fills_of_infer h⟩

/-- The constants and the forms of a typed program are those of the program but for their types. -/
lemma erase_of_typecheck {program checked : Expansion H} (h : typecheck program = .ok checked) :
    Scope.erase .ofTypes checked.consts = Scope.erase .ofTypes program.consts ∧
      List.Forall₂ (fun typed form => typed.withoutTypes = form.withoutTypes) checked.forms
        program.forms := by
  obtain ⟨consts, hconsts, h⟩ := Except.exists_of_bind_eq_ok h
  obtain ⟨forms, hforms, h⟩ := Except.exists_of_bind_eq_ok h
  obtain rfl := Except.ok.inj h
  obtain ⟨pairs, hpairs, h⟩ := Except.exists_of_bind_eq_ok hconsts
  obtain rfl := Except.ok.inj h
  constructor
  · have hentries : program.consts.entries.map (fun p => (p.1, p.2.erase .ofTypes)) =
        pairs.map fun p => (p.1, p.2.erase .ofTypes) := by
      rw [← List.forall₂_eq_eq_eq, List.forall₂_map_left_iff, List.forall₂_map_right_iff]
      refine (Except.mapM_eq_ok_iff.1 hpairs).imp fun p q hq => ?_
      obtain ⟨t, ht, hq⟩ := Except.exists_of_bind_eq_ok hq
      obtain rfl := Except.ok.inj hq
      rw [Node.erase_ofTypes, Node.erase_ofTypes, withoutTypes_of_infer ht]
    rw [Scope.erase, Bindings.map_ofList, ← hentries, ← Bindings.map_ofList,
      Bindings.ofList_entries]
  · exact ((Except.mapM_eq_ok_iff.1 hforms).imp fun form typed ht => withoutTypes_of_infer ht).flip

/-! ### Evaluation -/

lemma Outcome.Follows.eq_map_withoutTypes {x y : Outcome (Node H)}
    (h : x.Follows False .ofTypes (Node.erase .ofTypes) y) : y = x.map Node.withoutTypes := by
  cases h with
  | answer n => rw [Node.erase_ofTypes]; rfl
  | error err => rfl
  | endless => rfl
  | cut h y => exact h.elim

/-- Evaluation looks at no type. -/
lemma map_withoutTypes_evaluate {env env' : Scope Empty} {n n' : Node Empty}
    (henv : Scope.erase .ofTypes env = Scope.erase .ofTypes env')
    (hn : n.withoutTypes = n'.withoutTypes) (depth : Nat) :
    (evaluate depth env n).map Node.withoutTypes =
      (evaluate depth env' n').map Node.withoutTypes := by
  have hfollows := fun env n => evaluate_follows (T := False) (e := .ofTypes) Host.isBlind_empty
    (.inl (Eq.refl depth)) env n
  have h := (hfollows env n).eq_map_withoutTypes
  have h' := (hfollows env' n').eq_map_withoutTypes
  rw [henv, Node.erase_ofTypes, hn] at h
  rw [Node.erase_ofTypes] at h'
  exact h.symm.trans h'

/-- What a source expands to does not depend on the depth. -/
lemma expandSource_of_le {depth depth' : Nat} {source : String} {program : Expansion H} [Host H]
    (h : expandSource depth source = .ok program) (hle : depth ≤ depth') :
    expandSource depth' source = .ok program := by
  have hdeepens : Deepens fun depth => expandSource (H := H) depth source :=
    Deepens.bind fun forms => deepens_expandProgram .empty forms
  exact (hdeepens depth depth' hle (by simp [h])).trans h

/-- **Types have no effect on values.**  If a source can be expanded and typed, then a run of it
evaluates the typed forms; and each of them settles on the same value but for types, on the same
error, or on having no end, as the form that it comes from does where nothing has been typed. -/
theorem run_eq_and_settles_withoutTypes {depth : Nat} {source : String}
    {program checked : Expansion Empty} (hprogram : expandSource depth source = .ok program)
    (hchecked : typecheck program = .ok checked) :
    (∀ depth', depth ≤ depth' → run depth' source prelude =
        checked.forms.mapM (evaluate depth' (prelude.merge checked.consts))) ∧
      List.Forall₂ (fun typed form => ∃ r r',
          Settles (fun depth => evaluate depth (prelude.merge checked.consts) typed) r ∧
          Settles (fun depth => evaluate depth (prelude.merge program.consts) form) r' ∧
          r.map Node.withoutTypes = r'.map Node.withoutTypes)
        checked.forms program.forms := by
  obtain ⟨hconsts, hforms⟩ := erase_of_typecheck hchecked
  constructor
  · intro depth' hle
    have hrun : checkSource depth' source = .ok checked := by
      rw [checkSource, expandSource_of_le hprogram hle]
      exact hchecked
    rw [run, hrun]
    rfl
  · refine hforms.imp fun typed form hform => ?_
    obtain ⟨r, hr⟩ := (deepens_evaluate (prelude.merge checked.consts) typed).exists_settles
    obtain ⟨r', hr'⟩ := (deepens_evaluate (prelude.merge program.consts) form).exists_settles
    refine ⟨r, r', hr, hr', ?_⟩
    obtain ⟨depth, rfl, rfl⟩ := hr.exists_depth hr'
    refine map_withoutTypes_evaluate ?_ hform depth
    rw [Scope.erase_merge, Scope.erase_merge, hconsts]

/-- What the three forms of the program below answer, without types. -/
def twiceAnswers : List (Outcome (Node Empty)) :=
  [.ok (.value (.int 7) none), .error (.raised (.reference "a" (some ⟨55, 56⟩))),
    .error (.raised (.reference "none" (some ⟨63, 67⟩)))]

/-- A call, a typed item in a quotation, and a name that is not bound.  The call gives `7`, and the
other two forms fail at a name, with types and without. -/
theorem run_eq_and_settles_withoutTypes_of_twice :
    ∃ program checked : Expansion Empty,
      expandSource 1 "(def twice (lambda (f x) (f (f x)))) (twice (+ 1) 5) '(a : t) (none : t)" =
        .ok program ∧ typecheck program = .ok checked ∧
      (∀ depth', 1 ≤ depth' → run depth'
          "(def twice (lambda (f x) (f (f x)))) (twice (+ 1) 5) '(a : t) (none : t)" prelude =
        checked.forms.mapM (evaluate depth' (prelude.merge checked.consts))) ∧
      List.Forall₂ (fun typed form => ∃ r r',
          Settles (fun depth => evaluate depth (prelude.merge checked.consts) typed) r ∧
          Settles (fun depth => evaluate depth (prelude.merge program.consts) form) r' ∧
          r.map Node.withoutTypes = r'.map Node.withoutTypes)
        checked.forms program.forms ∧
      (checked.forms.map fun typed =>
        (evaluate 9 (prelude.merge checked.consts) typed).map Node.withoutTypes) = twiceAnswers ∧
      (program.forms.map fun form =>
        (evaluate 9 (prelude.merge program.consts) form).map Node.withoutTypes) = twiceAnswers := by
  obtain ⟨program, checked, hprogram, hchecked, htyped, hplain⟩ :
      ∃ program checked : Expansion Empty,
        expandSource 1 "(def twice (lambda (f x) (f (f x)))) (twice (+ 1) 5) '(a : t) (none : t)" =
          .ok program ∧ typecheck program = .ok checked ∧
        (checked.forms.map fun typed =>
          (evaluate 9 (prelude.merge checked.consts) typed).map Node.withoutTypes) = twiceAnswers ∧
        (program.forms.map fun form =>
          (evaluate 9 (prelude.merge program.consts) form).map Node.withoutTypes) = twiceAnswers :=
    ⟨_, _, by cbv, by cbv, by cbv, by cbv⟩
  obtain ⟨hrun, hforms⟩ := run_eq_and_settles_withoutTypes hprogram hchecked
  exact ⟨program, checked, hprogram, hchecked, hrun, hforms, htyped, hplain⟩

end TypedLisp
