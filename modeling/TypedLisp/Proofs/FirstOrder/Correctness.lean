import Mathlib
import TypedLisp.Proofs.FirstOrder.Evaluation
import TypedLisp.Proofs.Hostless

/-!
# First-order programs are evaluated correctly

Expansion and evaluation together implement the meaning of first-order programs, wherever their
nodes stand in a source and whatever types these have: a program evaluates to the value that it has,
and fails with a type error if it has none.
-/

namespace TypedLisp

variable {H : Type}

/-- Erasing takes away no functions of the host. -/
theorem Node.IsHostless.of_erase {e : Erasure} :
    ∀ {n : Node H}, (n.erase e).IsHostless → n.IsHostless
  | ⟨.list items, _, _⟩, h => .list fun n hn => by
    rw [Node.erase_mk, Kind.erase, Node.eraseAll_eq_map] at h
    exact (h.item (List.mem_map_of_mem hn)).of_erase
  | ⟨.quoted inner, _, _⟩, h => .quoted h.inner.of_erase
  | ⟨.atom name, _, _⟩, _ => .atom name
  | ⟨.str text, _, _⟩, _ => .str text
  | ⟨.null, _, _⟩, _ => .null
  | ⟨.keyword name, _, _⟩, _ => .keyword name
  | ⟨.value v, _, _⟩, h => .value (by cases h with | value h => exact h)
  | ⟨.procedure f, _, _⟩, h => .procedure (by cases h with | procedure h => exact h)

namespace FirstOrder

/-- A computation has a value. -/
def IsValue (r : Outcome (Node H)) (v : Val) : Prop :=
  ∃ n u, r = .ok n ∧ n.kind = .value u ∧ value? u = some v

/-- A computation fails with a type error. -/
def IsTypeError (r : Outcome (Node H)) : Prop :=
  ∃ cause spans, r = .error (.raised (.typing cause spans))

lemma isHostless_function {params : List String} {body : Node H} (h : body.IsHostless) :
    (function params body).IsHostless := by
  refine .list ?_
  simpa using ⟨.atom _, .list (by simpa using fun x _ => .atom x), h⟩

lemma isHostless_chain {params : List String} {body : Node H} (h : body.IsHostless) :
    (chain params body).IsHostless := by
  induction params with
  | nil => exact h
  | cons x params ih => exact isHostless_function ih

/-- There is no function of the host in an expression. -/
theorem Term.isHostless_expanded {t : Term} {S : String → Node H} (h : ∀ x, (S x).IsHostless) :
    (t.expanded S).IsHostless := by
  induction t using Term.induction (Q := fun args => ∀ S : String → Node H,
    (∀ x, (S x).IsHostless) → ∀ n ∈ args.expanded S, n.IsHostless) generalizing S with
  | literal l => exact .atom _
  | var x => exact h x
  | op op left right ihleft ihright =>
    refine .list ?_
    simpa using ⟨.atom _, ihleft h, ihright h⟩
  | cond condition yes no ihcondition ihyes ihno =>
    refine .list ?_
    simpa using ⟨.atom _, ihcondition h, ihyes h, ihno h⟩
  | letIn x value body ihvalue ihbody =>
    refine ihbody fun y => ?_
    rcases eq_or_ne y x with rfl | hne
    · rw [Function.update_self]
      exact ihvalue h
    · rw [Function.update_of_ne hne]
      exact h y
  | call args body ihargs ihbody =>
    exact .list (List.forall_mem_cons.2 ⟨isHostless_chain (ihbody h), ihargs S h⟩)
  | last x arg ih S h n hn =>
    obtain rfl := List.mem_singleton.1 hn
    exact ih h
  | cons x arg args ih ihargs S h n hn =>
    rcases List.mem_cons.1 hn with rfl | hn
    · exact ih h
    · exact ihargs S h n hn

/-- A program expands to one form, that of the expanded expression. -/
lemma exists_expandProgram [Host H] {t : Term} (ht : t.IsProgram) {n : Node H}
    (hn : n.erase .ofBoth = t.node) :
    ∃ m, (∀ depth, expandProgram depth .empty [n] = .ok ⟨[m], .empty⟩) ∧
      m.erase .ofBoth = t.expanded fun x => .atom x none := by
  have hscope : Spares (.empty : Scope H) t.binders := ⟨fun _ _ => rfl, fun _ _ => rfl⟩
  have hbecomes : Becomes (evaluate 0) .empty t.node (t.expanded (standsFor .empty)) :=
    Term.becomes_expanded ht.binders hscope
  -- at depth 0 nothing is evaluated, so it does not matter what the functions of the host look at
  have hfollows : Outcome.Follows False .ofBoth (Expanded.erase .ofBoth)
      (expandNode (evaluate 0) .empty n) (expandNode (evaluate 0) .empty (n.erase .ofBoth)) :=
    expandNode_follows (fun _ _ => .endless) .empty n
  rw [hn, hbecomes] at hfollows
  obtain ⟨⟨node?, consts⟩, hx, heq⟩ := hfollows.of_ok
  obtain ⟨hnode, hconsts⟩ := Expanded.mk.inj heq
  obtain ⟨m, rfl, hm⟩ := Option.map_eq_some_iff.1 hnode
  have hconsts : consts = .empty :=
    Bindings.ext (List.map_eq_nil_iff.1 (congrArg Bindings.entries hconsts))
  have hzero : expandProgram 0 .empty [n] = .ok ⟨[m], .empty⟩ := by
    rw [expandProgram, expandForms, hx, hconsts]
    rfl
  refine ⟨m, fun depth => ?_, hm⟩
  have hends : expandProgram 0 .empty [n] ≠ .error .endless := by
    rw [hzero]
    exact fun h => by cases h
  exact (deepens_expandProgram .empty [n] 0 depth (Nat.zero_le depth) hends).trans hzero

lemma isHostless_prelude : Scope.IsHostless (prelude : Scope H) := by
  refine Bindings.forall_ofList fun p hp => ?_
  obtain ⟨op, -, rfl⟩ := List.mem_map.1 hp
  exact .value fun f h => by cases h

/-- What shows of an expression without spans and types is the outcome with them. -/
lemma Shows.of_follows {P : Val → Prop} {r r' : Outcome (Node H)} (hshows : Shows P r')
    (h : r.Follows False .ofBoth (Node.erase .ofBoth) r') :
    (∀ v, IsValue r v ↔ P v) ∧ ((∀ v, ¬ P v) → IsTypeError r) := by
  cases hshows with
  | @value u v hu hP =>
    obtain ⟨⟨kind, span, type⟩, rfl, hn⟩ := h.of_ok
    have hkind : kind = .value u := by
      cases kind with
      | value u' => exact (Node.mk.inj hn).1
      | quoted | list | atom | str | null | keyword | procedure => cases hn
    refine ⟨fun w => ?_, fun hnone => absurd ((hP v).2 rfl) (hnone v)⟩
    rw [hP w]
    constructor
    · rintro ⟨n', u', hn', hkind', hu'⟩
      cases hn'
      cases hkind.symm.trans hkind'
      exact Option.some.inj (hu'.symm.trans hu)
    · rintro rfl
      exact ⟨_, u, rfl, hkind, hu⟩
  | typeError cause spans hP =>
    obtain ⟨err, rfl, herr⟩ := h.of_raised
    refine ⟨fun w => ⟨?_, fun hw => absurd hw (hP w)⟩, fun _ => ?_⟩
    · rintro ⟨n, u, hn, -⟩
      cases hn
    · cases err with
      | typing cause' spans' => exact ⟨cause', spans', rfl⟩
      | lexical | grammar | reference => cases herr

/-- What an expression evaluates to does not depend on the functions of the host, nor on spans and
types. -/
lemma follows_of_isHostless [host : Host H] {m : Node H} (hm : m.IsHostless) (depth : Nat) :
    Outcome.Follows False .ofBoth (Node.erase .ofBoth) (evaluate depth prelude m)
      (@evaluate H Host.failing depth prelude (m.erase .ofBoth)) := by
  have hfollows := @evaluate_follows H False .ofBoth Host.failing (Host.isBlind_failing _ _) depth
    depth (.inl rfl) prelude m
  rw [Scope.erase_prelude] at hfollows
  rwa [(evaluate_same host Host.failing depth prelude m isHostless_prelude hm).eq]

/-- **First-order programs are evaluated correctly.**  A node of a program expands to one form, and
defines nothing; this form evaluates, among the operators, to just the value that the program has,
and to a type error if the program has no value. -/
theorem settles_of_isProgram [Host H] {t : Term} (ht : t.IsProgram) {n : Node H}
    (hn : n.erase .ofBoth = t.node) :
    ∃ m, (∀ depth, expandProgram depth .empty [n] = .ok ⟨[m], .empty⟩) ∧
      ∃ r, Settles (fun depth => evaluate depth prelude m) r ∧
        (∀ v, IsValue r v ↔ Gives .empty t v) ∧
        ((∀ v, ¬ Gives .empty t v) → IsTypeError r) := by
  obtain ⟨m, hm, herase⟩ := exists_expandProgram ht hn
  have hhostless : m.IsHostless := by
    have h : (t.expanded fun x => (.atom x none : Node H)).IsHostless :=
      Term.isHostless_expanded fun x => .atom x
    rw [← herase] at h
    exact h.of_erase
  have hfits : @Fits H Host.failing [] t.binders (fun x => .atom x none) .empty :=
    @Fits.mk H Host.failing [] _ _ _ (by simp) (fun _ _ => rfl) (by simp) (by simp)
  obtain ⟨r', hshows, heventually⟩ :=
    @Term.answers H Host.failing _ _ _ _ ht.binders ht.closed hfits
  obtain ⟨r, hsettles⟩ := (deepens_evaluate prelude m).exists_settles
  refine ⟨m, hm, r, hsettles, hshows.of_follows ?_⟩
  obtain ⟨enough, -, hle⟩ := hsettles
  obtain ⟨depth, hdepth, hge⟩ := (heventually.and (Filter.eventually_ge_atTop enough)).exists
  have hr : evaluate depth prelude m = r := hle depth hge
  have hr' : @evaluate H Host.failing depth prelude (m.erase .ofBoth) = r' := by
    rw [herase]
    exact hdepth
  rw [← hr, ← hr']
  exact follows_of_isHostless hhostless depth

/-- The literal of one digit. -/
def digit (negative : Bool) (d : Fin 10) : Term :=
  .literal ⟨negative, [d], List.cons_ne_nil _ _⟩

/-- `(let y (+ 1 2) ((lambda (a b) (? (< a b) (/ a 0) (* y b))) 3 -7))`. -/
def scaled : Term :=
  .letIn "y" (.op .add (digit false 1) (digit false 2))
    (.call (.cons "a" (digit false 3) (.last "b" (digit true 7)))
      (.cond (.op .lt (.var "a") (.var "b")) (.op .div (.var "a") (digit false 0))
        (.op .mul (.var "y") (.var "b"))))

lemma isProgram_scaled : scaled.IsProgram := by
  refine ⟨by simp [scaled, digit, Term.InScope, Args.InScope, Args.scope], by decide, ?_⟩
  intro x hx
  have hmem : x = "y" ∨ x = "a" ∨ x = "b" := by
    simpa [scaled, digit, Term.binders, Args.binders] using hx
  rcases hmem with rfl | rfl | rfl <;> exact not_isReserved (by decide) (by decide) (by decide)

lemma gives_scaled : Gives .empty scaled (.int (-21)) := by
  have hy : Gives .empty (.op .add (digit false 1) (digit false 2)) (.int 3) :=
    .op (m := 1) (n := 2) (.literal (by decide)) (.literal (by decide)) (by decide)
  have hargs (ρ : Env) : Binds ρ (.cons "a" (digit false 3) (.last "b" (digit true 7))) ρ
      (.value "b" (.int (-7)) (.value "a" (.int 3) ρ)) :=
    .cons (.literal (by decide)) (.last (.literal (by decide)))
  exact .letIn (.call (hargs _) (.no (u := .bool false) (.op (.value rfl) (.value rfl) (by decide))
    rfl (.op (.delayed rfl hy) (.value rfl) (by decide))))

/-- A local definition that is used inside a function, and a division that is not evaluated. -/
theorem settles_of_isProgram_scaled : ∃ n : Node Empty,
    read "(let y (+ 1 2) ((lambda (a b) (? (< a b) (/ a 0) (* y b))) 3 -7))" = .ok [n] ∧
      scaled.IsProgram ∧ n.erase .ofBoth = scaled.node ∧ Gives .empty scaled (.int (-21)) ∧
      ∃ m, (∀ depth, expandProgram depth .empty [n] = .ok ⟨[m], .empty⟩) ∧
        ∃ r, Settles (fun depth => evaluate depth prelude m) r ∧ IsValue r (.int (-21)) := by
  obtain ⟨n, hread, hn⟩ : ∃ n : Node Empty,
      read "(let y (+ 1 2) ((lambda (a b) (? (< a b) (/ a 0) (* y b))) 3 -7))" = .ok [n] ∧
        n.erase .ofBoth = scaled.node := ⟨_, by cbv, rfl⟩
  obtain ⟨m, hm, r, hr, hvalue, -⟩ := settles_of_isProgram isProgram_scaled hn
  exact ⟨n, hread, isProgram_scaled, hn, gives_scaled, m, hm, r, hr, (hvalue _).2 gives_scaled⟩

end FirstOrder
end TypedLisp
