import TypedLisp.Program
import TypedLisp.Proofs.Places.Evaluation
import TypedLisp.Proofs.Places.Inference
import TypedLisp.Proofs.Places.Reading

/-!
# Places of programs

A program that is read has its spans in the source, and each stage hands them on to the next one.
Up to inference the types in it are laid as they are written; behind it nothing looks at a span in a
type any more.
-/

namespace TypedLisp

variable {H : Type} {cs : List Char} {T U : Node H → Prop}

/-! ### Types of a program -/

lemma Scope.IsPlaced.mapM {f : Node H → Outcome (Node H)} {scope : Scope H}
    (hscope : scope.IsPlaced cs T)
    (hf : ∀ n : Node H, n.IsPlaced cs T → (f n).StaysIn cs (Node.IsPlaced cs U)) :
    Outcome.StaysIn cs (Scope.IsPlaced cs U) (Bindings.mapM f scope) := by
  have hentry : ∀ p ∈ scope.entries, Outcome.StaysIn cs
      (fun q : String × Node H => q.2.IsPlaced cs U) (do let v ← f p.2; return (p.1, v)) := by
    intro p hp
    have hvalue : p.2.IsPlaced cs T := hscope p.1 p.2 (Bindings.get?_eq_some_iff.2 hp)
    exact (hf p.2 hvalue).bind fun v hv => .ok hv
  refine (Outcome.StaysIn.mapM hentry).bind fun pairs hpairs => .ok ?_
  exact Bindings.forall_ofList (P := fun _ (n : Node H) => n.IsPlaced cs U) hpairs

lemma typecheck_staysIn {program : Expansion H} (h : program.IsPlaced cs (Node.IsLaid cs)) :
    (typecheck program).StaysIn cs (Expansion.IsPlaced cs fun _ => True) := by
  refine (h.consts.mapM fun n hn => Typing.infer_staysIn hn).bind fun consts hconsts => ?_
  exact (Outcome.StaysIn.mapM fun form hform => Typing.infer_staysIn (h.forms form hform)).bind
    fun forms hforms => .ok ⟨hforms, hconsts⟩

/-! ### Interfaces -/

lemma resolvedType_staysIn (name what : String) {part : Node H} (hpart : part.IsPlaced cs T) :
    (Outcome.ofExcept (resolvedType name what part)).StaysIn cs fun _ => True := by
  unfold resolvedType
  split
  · exact .ok trivial
  · exact .typeErrorAt _ hpart.span_isIn

lemma declareParam_staysIn (name : String) {param : Node H} (hparam : param.IsPlaced cs T) :
    (Outcome.ofExcept (declareParam name param)).StaysIn cs fun _ => True := by
  unfold declareParam
  split
  · exact .typeErrorAt _ hparam.span_isIn
  · rw [Outcome.ofExcept_bind]
    exact (resolvedType_staysIn name _ hparam).bind fun _ _ => .ok trivial

lemma declareChain_staysIn (name : String) {n : Node H} (hn : n.IsPlaced cs T) :
    (Outcome.ofExcept (declareChain name n)).StaysIn cs fun p => p.2.IsPlaced cs T := by
  induction n using Node.induction with
  | leaf kind span type hkind =>
    rw [declareChain_eq, Node.lambda?_eq_none hkind]
    exact .ok hn
  | list items span type ih =>
    rw [declareChain_eq]
    cases hlambda : (⟨.list items, span, type⟩ : Node H).lambda? with
    | none => exact .ok hn
    | some f =>
      obtain ⟨params, body⟩ := f
      obtain ⟨hparams, hbody⟩ := hn.of_lambda? hlambda
      obtain ⟨items', hitems, hmem⟩ := exists_items_of_lambda? hlambda
      obtain rfl : items = items' := Option.some.inj hitems
      have hown : (Outcome.ofExcept (params.mapM (declareParam name))).StaysIn cs
          fun _ => True := by
        rw [Outcome.ofExcept_mapM]
        exact (Outcome.StaysIn.mapM fun p hp => declareParam_staysIn name (hparams p hp)).imp
          fun _ _ => trivial
      dsimp only
      rw [Outcome.ofExcept_bind]
      refine hown.bind fun own _ => ?_
      rw [Outcome.ofExcept_bind]
      exact (ih body hmem hbody).bind fun p hp => .ok hp

lemma declare_staysIn (name : String) {lambda : Node H} (hlambda : lambda.IsPlaced cs T) :
    (Outcome.ofExcept (declare name lambda)).StaysIn cs fun _ => True := by
  rw [declare, Outcome.ofExcept_bind]
  refine (declareChain_staysIn name hlambda).bind fun p hp => ?_
  rw [Outcome.ofExcept_bind]
  exact (resolvedType_staysIn name _ hp).bind fun _ _ => .ok trivial

lemma Interface.ofConsts_staysIn (name : String) {consts : Scope H}
    (hconsts : consts.IsPlaced cs T) :
    (Outcome.ofExcept (Interface.ofConsts name consts)).StaysIn cs fun _ => True := by
  rw [Interface.ofConsts, Outcome.ofExcept_bind, Outcome.ofExcept_mapM]
  refine (Outcome.StaysIn.mapM (G := fun _ => True) fun p hp => ?_).bind fun _ _ => .ok trivial
  have hentry : p ∈ consts.entries := (List.mem_filter.1 hp).1
  exact declare_staysIn p.1 (hconsts p.1 p.2 (Bindings.get?_eq_some_iff.2 hentry))

/-! ### Stages -/

section Stages

variable [Host H] {source : String}

lemma expandSource_staysIn (hhost : Host.StaysIn (H := H) source.toList (Node.IsLaid source.toList))
    (depth : Nat) : (expandSource (H := H) depth source).StaysIn source.toList
      (Expansion.IsPlaced source.toList (Node.IsLaid source.toList)) :=
  (read_staysIn source).bind fun _ hforms =>
    expandProgram_staysIn hhost keptByTypes_isLaid depth Bindings.forall_empty hforms

lemma checkSource_staysIn (hhost : Host.StaysIn (H := H) source.toList (Node.IsLaid source.toList))
    (depth : Nat) : (checkSource (H := H) depth source).StaysIn source.toList
      (Expansion.IsPlaced source.toList fun _ => True) :=
  (expandSource_staysIn hhost depth).bind fun _ hprogram => typecheck_staysIn hprogram

/-- A run stays in the source, if what the host binds has its spans there. -/
theorem run_staysIn (hhost : ∀ T : Node H → Prop, Host.StaysIn source.toList T) (depth : Nat)
    {host : Scope H} (hbound : host.IsPlaced source.toList fun _ => True) :
    (run depth source host).StaysIn source.toList
      fun values => ∀ v ∈ values, v.IsPlaced source.toList fun _ => True := by
  rw [run]
  refine (checkSource_staysIn (hhost _) depth).bind fun program hprogram => ?_
  have henv : Scope.IsPlaced source.toList (fun _ => True) (host.merge program.consts) :=
    hbound.merge hprogram.consts
  exact Outcome.StaysIn.mapM fun form hform =>
    evaluate_staysIn (hhost _) keptByTypes_true depth _ form henv (hprogram.forms form hform)

end Stages

lemma isPlaced_prelude : (prelude : Scope H).IsPlaced cs T :=
  Bindings.forall_ofList (List.forall_mem_map.2 fun _ _ => .value _ Span.isInIfAny_none)

/-- Whatever stage a program is taken to, its errors point into the source. -/
theorem render_staysIn (depth : Nat) (source moduleName : String) (stage : Stage) (types : Bool) :
    (render depth source moduleName stage types).StaysIn source.toList fun _ => True := by
  have hcheck : (checkSource (H := Empty) depth source).StaysIn source.toList
      (Expansion.IsPlaced source.toList fun _ => True) :=
    checkSource_staysIn Host.staysIn_empty depth
  cases stage with
  | expand =>
    exact (expandSource_staysIn Host.staysIn_empty depth).bind fun _ _ => .ok trivial
  | infer => exact hcheck.bind fun _ _ => .ok trivial
  | interface =>
    exact hcheck.bind fun program hprogram =>
      (Interface.ofConsts_staysIn moduleName hprogram.consts).bind fun _ _ => .ok trivial
  | eval =>
    exact (run_staysIn (fun _ => Host.staysIn_empty) depth isPlaced_prelude).bind
      fun _ _ => .ok trivial

end TypedLisp
