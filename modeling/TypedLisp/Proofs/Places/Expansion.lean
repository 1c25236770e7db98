import TypedLisp.Expansion
import TypedLisp.Proofs.Places.Node

/-!
# Places of expanded nodes

Expansion moves nodes around and makes up no spans but those of nested arrows.  So if the spans of
a node, of what names stand for and of the answers of macros lie in the text, the spans of the
expansion do, and an error points into the text.  All that is asked of the types is that they keep
their property `T` when they are brought to one-argument arrows.
-/

namespace TypedLisp

variable {H : Type} {cs : List Char} {T : Node H → Prop}

/-- A property that an unknown type has, and that types keep when arrows are nested in them. -/
structure KeptByTypes (T : Node H → Prop) : Prop where
  /-- The unknown type has the property. -/
  null : T .null
  /-- Nesting of arrows keeps the property. -/
  curry : ∀ {t}, T t → T t.curry

lemma keptByTypes_isLaid : KeptByTypes (Node.IsLaid cs : Node H → Prop) :=
  ⟨.null, .curry⟩

lemma keptByTypes_true : KeptByTypes fun _ : Node H => True :=
  ⟨trivial, fun _ => trivial⟩

/-- The spans of what names stand for lie in a text. -/
def Scope.IsPlaced (cs : List Char) (T : Node H → Prop) (scope : Scope H) : Prop :=
  scope.Forall fun _ n => n.IsPlaced cs T

/-- The spans of an expansion lie in a text. -/
structure Expanded.IsPlaced (cs : List Char) (T : Node H → Prop) (e : Expanded H) : Prop where
  /-- Those of the node do. -/
  node : ∀ m, e.node? = some m → m.IsPlaced cs T
  /-- Those of the constants do. -/
  consts : Scope.IsPlaced cs T e.consts

/-- An evaluation of nodes with spans in a text stays in the text. -/
def EvaluationStays (cs : List Char) (T : Node H → Prop)
    (evaluate : Scope H → Node H → Outcome (Node H)) : Prop :=
  ∀ env n, Scope.IsPlaced cs T env → n.IsPlaced cs T →
    (evaluate env n).StaysIn cs (Node.IsPlaced cs T)

variable {evaluate : Scope H → Node H → Outcome (Node H)}

lemma Expanded.IsPlaced.ofNode {n : Node H} (h : n.IsPlaced cs T) :
    (Expanded.ofNode n).IsPlaced cs T :=
  ⟨by rintro _ ⟨⟩; exact h, Bindings.forall_empty⟩

/-- The type of a node with one-argument arrows only. -/
lemma Node.IsPlaced.curry_type {kind : Kind H} {span : Option Span} {type : Option (Node H)}
    (hT : KeptByTypes T) (h : Node.IsPlaced cs T ⟨kind, span, type⟩) :
    T (type.getD .null).curry :=
  hT.curry (h.type hT.null)

namespace Macro

variable {m : Macro H}

lemma isPlaced_environment (envName argsName : String) {args : List (Node H)}
    (hargs : ∀ arg ∈ args, arg.IsPlaced cs T) :
    Scope.IsPlaced cs T (Macro.environment envName argsName args) := by
  have hfirst : (Node.procedure .first : Node H).IsPlaced cs T := .leaf Span.isInIfAny_none rfl
  have hprelude : Scope.IsPlaced cs T (macroPrelude : Scope H) :=
    Bindings.forall_ofList (by simpa using hfirst)
  refine (hprelude.insert .null).insert (.quoted Span.isInIfAny_none (.list Span.isInIfAny_none ?_))
  exact List.forall_mem_map.2 fun arg harg => .quoted Span.isInIfAny_none (hargs arg harg)

/-- The parts of a macro are parts of its call. -/
lemma isPlaced_of_of? {items : List (Node H)} {scope : Scope H}
    (hitems : ∀ n ∈ items, n.IsPlaced cs T) (h : Macro.of? items scope = some m) :
    m.header.IsPlaced cs T ∧ m.body.IsPlaced cs T := by
  unfold Macro.of? at h
  split at h
  · split at h
    · obtain rfl := Option.some.inj h
      have hparts := (hitems _ List.mem_cons_self).parts
      simp only [Kind.parts, List.forall_mem_cons] at hparts
      exact ⟨hparts.2.1, hparts.2.2.1⟩
    · cases h
  · cases h

lemma expand_staysIn (hev : EvaluationStays cs T evaluate) (hheader : m.header.IsPlaced cs T)
    (hbody : m.body.IsPlaced cs T) {args : List (Node H)}
    (hargs : ∀ arg ∈ args, arg.IsPlaced cs T) :
    (m.expand evaluate args).StaysIn cs (Expanded.IsPlaced cs T) := by
  rw [Macro.expand]
  cases m.names? with
  | none => exact .typeErrorAt _ hheader.span_isIn
  | some names =>
    exact (hev _ _ (isPlaced_environment _ _ hargs) hbody).map fun v hv => .ofNode hv

end Macro

mutual

/-- Expansion stays in the text if evaluation does. -/
theorem expandNode_staysIn (hev : EvaluationStays cs T evaluate) (hT : KeptByTypes T) :
    ∀ (scope : Scope H) (n : Node H), scope.IsPlaced cs T → n.IsPlaced cs T →
      (expandNode evaluate scope n).StaysIn cs (Expanded.IsPlaced cs T)
  | scope, ⟨.atom name, span, type⟩, hscope, hn => by
    rw [expandNode]
    cases hget : scope.get? name with
    | none => exact .ok (.ofNode (.withType (.leaf hn.span_isIn rfl) (hn.curry_type hT)))
    | some value => exact .ok (.ofNode (hscope name value hget))
  | scope, ⟨.quoted inner, span, type⟩, hscope, hn => by
    have hinner : inner.IsPlaced cs T := hn.parts inner (by simp [Kind.parts])
    rw [expandNode]
    refine (expandNode_staysIn hev hT scope inner hscope hinner).bind fun e he =>
      .ok ⟨?_, he.consts⟩
    rintro _ ⟨⟩
    refine .withType (.quoted hn.span_isIn ?_) (hn.curry_type hT)
    cases hnode : e.node? with
    | none => exact .null
    | some m => exact he.node m hnode
  | scope, ⟨.list items, span, type⟩, hscope, hn => by
    have hspan : Span.IsInIfAny span cs := hn.span_isIn
    have hitems : ∀ n ∈ items, n.IsPlaced cs T := hn.parts
    rw [expandNode]
    cases SpecialForm.of? items scope with
    | some form =>
      cases form with
      | letForm => exact expandLet_staysIn hev hT scope span items hscope hspan hitems
      | defForm => exact expandDef_staysIn hev hT scope span items hscope hspan hitems
      | lambdaForm =>
        exact expandLambda_staysIn hev hT scope span _ items hscope hspan (hn.curry_type hT) hitems
    | none =>
      cases hcall : Macro.of? items scope with
      | some m =>
        -- the answer of a macro is taken as it is, so evaluation has to keep the spans in the text
        obtain ⟨hheader, hbody⟩ := Macro.isPlaced_of_of? hitems hcall
        exact Macro.expand_staysIn hev hheader hbody
          fun arg harg => hitems arg (List.mem_of_mem_tail harg)
      | none =>
        refine (expandItems_staysIn hev hT scope items hscope hitems).bind fun x hx =>
          .ok ⟨?_, hx.2⟩
        rintro _ ⟨⟩
        exact .withType (.list hspan hx.1) (hn.curry_type hT)
  | scope, ⟨.str _, span, type⟩, hscope, hn | scope, ⟨.null, span, type⟩, hscope, hn
  | scope, ⟨.keyword _, span, type⟩, hscope, hn | scope, ⟨.value _, span, type⟩, hscope, hn
  | scope, ⟨.procedure _, span, type⟩, hscope, hn =>
    .ok (.ofNode (.withType (.leaf hn.span_isIn rfl) (hn.curry_type hT)))

theorem expandItems_staysIn (hev : EvaluationStays cs T evaluate) (hT : KeptByTypes T) :
    ∀ (scope : Scope H) (ns : List (Node H)), scope.IsPlaced cs T →
      (∀ n ∈ ns, n.IsPlaced cs T) → (expandItems evaluate scope ns).StaysIn cs
        fun x => (∀ m ∈ x.1, m.IsPlaced cs T) ∧ Scope.IsPlaced cs T x.2
  | scope, [], hscope, hns => .ok ⟨by simp, Bindings.forall_empty⟩
  | scope, n :: ns, hscope, hns => by
    obtain ⟨hn, hns⟩ := List.forall_mem_cons.1 hns
    rw [expandItems]
    refine (expandNode_staysIn hev hT scope n hscope hn).bind fun e he =>
      (expandItems_staysIn hev hT scope ns hscope hns).bind fun x hx =>
        .ok ⟨?_, he.consts.merge hx.2⟩
    intro m hm
    rcases List.mem_append.1 hm with hm | hm
    · exact he.node m (Option.mem_toList.1 hm)
    · exact hx.1 m hm

theorem expandLet_staysIn (hev : EvaluationStays cs T evaluate) (hT : KeptByTypes T) :
    ∀ (scope : Scope H) (span : Option Span) (ns : List (Node H)), scope.IsPlaced cs T →
      Span.IsInIfAny span cs → (∀ n ∈ ns, n.IsPlaced cs T) →
      (expandLet evaluate scope span ns).StaysIn cs (Expanded.IsPlaced cs T)
  | scope, span, [], hscope, hspan, hns => .typeErrorAt _ hspan
  | scope, span, _ :: parts, hscope, hspan, hns => by
    rw [expandLet]
    split
    · exact .typeErrorAt _ hspan
    · exact expandLetParts_staysIn hev hT scope .empty parts hscope Bindings.forall_empty
        (List.forall_mem_cons.1 hns).2

theorem expandLetParts_staysIn (hev : EvaluationStays cs T evaluate) (hT : KeptByTypes T) :
    ∀ (scope bound : Scope H) (ns : List (Node H)), scope.IsPlaced cs T →
      bound.IsPlaced cs T → (∀ n ∈ ns, n.IsPlaced cs T) →
      (expandLetParts evaluate scope bound ns).StaysIn cs (Expanded.IsPlaced cs T)
  | scope, bound, [], hscope, hbound, hns => .ok ⟨nofun, Bindings.forall_empty⟩
  | scope, bound, [body], hscope, hbound, hns =>
    expandNode_staysIn hev hT (scope.merge bound) body (hscope.merge hbound)
      (hns body List.mem_cons_self)
  | scope, bound, target :: value :: parts, hscope, hbound, hns => by
    obtain ⟨htarget, hns⟩ := List.forall_mem_cons.1 hns
    obtain ⟨hvalue, hparts⟩ := List.forall_mem_cons.1 hns
    rw [expandLetParts]
    cases target.atom? with
    | none => exact .typeErrorAt _ htarget.span_isIn
    | some name =>
      refine (expandNode_staysIn hev hT scope value hscope hvalue).bind fun e he => ?_
      cases hnode : e.node? with
      | none => exact .typeErrorAt _ hvalue.span_isIn
      | some node =>
        have hnodeplaced : node.IsPlaced cs T := he.node node hnode
        exact expandLetParts_staysIn hev hT scope _ parts hscope (hbound.insert hnodeplaced) hparts

theorem expandDef_staysIn (hev : EvaluationStays cs T evaluate) (hT : KeptByTypes T) :
    ∀ (scope : Scope H) (span : Option Span) (ns : List (Node H)), scope.IsPlaced cs T →
      Span.IsInIfAny span cs → (∀ n ∈ ns, n.IsPlaced cs T) →
      (expandDef evaluate scope span ns).StaysIn cs (Expanded.IsPlaced cs T)
  | scope, span, [], hscope, hspan, hns => .typeErrorAt _ hspan
  | scope, span, _ :: parts, hscope, hspan, hns => by
    rw [expandDef]
    split
    · exact .typeErrorAt _ hspan
    · exact (expandDefParts_staysIn hev hT scope .empty parts hscope Bindings.forall_empty
        (List.forall_mem_cons.1 hns).2).bind fun consts hconsts => .ok ⟨nofun, hconsts⟩

theorem expandDefParts_staysIn (hev : EvaluationStays cs T evaluate) (hT : KeptByTypes T) :
    ∀ (scope bound : Scope H) (ns : List (Node H)), scope.IsPlaced cs T →
      bound.IsPlaced cs T → (∀ n ∈ ns, n.IsPlaced cs T) →
      (expandDefParts evaluate scope bound ns).StaysIn cs (Scope.IsPlaced cs T)
  | scope, bound, [], hscope, hbound, hns | scope, bound, [_], hscope, hbound, hns => .ok hbound
  | scope, bound, target :: value :: parts, hscope, hbound, hns => by
    obtain ⟨htarget, hns⟩ := List.forall_mem_cons.1 hns
    obtain ⟨hvalue, hparts⟩ := List.forall_mem_cons.1 hns
    rw [expandDefParts]
    cases target.atom? with
    | none => exact .typeErrorAt _ htarget.span_isIn
    | some name =>
      refine (expandNode_staysIn hev hT scope value hscope hvalue).bind fun e he => ?_
      cases hnode : e.node? with
      | none => exact .typeErrorAt _ hvalue.span_isIn
      | some node =>
        have hnodeplaced : node.IsPlaced cs T := he.node node hnode
        exact expandDefParts_staysIn hev hT scope _ parts hscope (hbound.insert hnodeplaced) hparts

theorem expandLambda_staysIn (hev : EvaluationStays cs T evaluate) (hT : KeptByTypes T) :
    ∀ (scope : Scope H) (span : Option Span) (type : Node H) (ns : List (Node H)),
      scope.IsPlaced cs T → Span.IsInIfAny span cs → T type → (∀ n ∈ ns, n.IsPlaced cs T) →
      (expandLambda evaluate scope span type ns).StaysIn cs (Expanded.IsPlaced cs T)
  | scope, span, type, ns, hscope, hspan, htype, hns =>
    match ns, LambdaShape.of ns, hns with
    | [head, ⟨.list params, paramsSpan, paramsType⟩, body], _, hns => by
      have hparams := hns ⟨.list params, paramsSpan, paramsType⟩ (by simp)
      have hbody := hns body (by simp)
      rw [expandLambda]
      split
      · exact .typeErrorAt _ hparams.span_isIn
      · refine (expandNode_staysIn hev hT scope body hscope hbody).bind fun e he => ?_
        cases hnode : e.node? with
        | none => exact .typeErrorAt _ hspan
        | some node =>
          refine (expandParams_staysIn hev hT scope head paramsSpan span node params hscope
            (hns head (by simp)) hparams.span_isIn hspan (he.node node hnode) hparams.parts).bind
            fun chain hchain => .ok ⟨?_, he.consts⟩
          rintro _ ⟨⟩
          exact hchain.withType htype
    | [head, params, body], .noList _ _ h, hns => by
      have hparams := hns params (by simp)
      rw [expandLambda_of_noList _ h]
      exact .typeErrorAt _ hparams.span_isIn
    | ns, .notThree h, _ => by
      rw [expandLambda_of_notThree _ h]
      exact .typeErrorAt _ hspan

theorem expandParams_staysIn (hev : EvaluationStays cs T evaluate) (hT : KeptByTypes T) :
    ∀ (scope : Scope H) (head : Node H) (paramsSpan span : Option Span) (body : Node H)
      (ns : List (Node H)), scope.IsPlaced cs T → head.IsPlaced cs T →
      Span.IsInIfAny paramsSpan cs → Span.IsInIfAny span cs → body.IsPlaced cs T →
      (∀ n ∈ ns, n.IsPlaced cs T) →
      (expandParams evaluate scope head paramsSpan span body ns).StaysIn cs (Node.IsPlaced cs T)
  | scope, head, paramsSpan, span, body, [], hscope, hhead, hparamsSpan, hspan, hbody, hns =>
    .ok hbody
  | scope, head, paramsSpan, span, body, param :: params, hscope, hhead, hparamsSpan, hspan, hbody,
    hns => by
    obtain ⟨hparam, hparams⟩ := List.forall_mem_cons.1 hns
    rw [expandParams]
    refine (expandParams_staysIn hev hT scope head paramsSpan span body params hscope hhead
      hparamsSpan hspan hbody hparams).bind fun inner hinner =>
        (expandNode_staysIn hev hT scope param hscope hparam).bind fun e he => ?_
    cases hnode : e.node? with
    | none => exact .typeErrorAt _ hparam.span_isIn
    | some node =>
      have hlist : (Node.list [node] paramsSpan).IsPlaced cs T :=
        .list hparamsSpan (by simpa using he.node node hnode)
      exact .ok (.list hspan (by simpa using ⟨hhead, hlist, hinner⟩))

end

/-- The spans of an expanded program lie in a text. -/
structure Expansion.IsPlaced (cs : List Char) (T : Node H → Prop) (x : Expansion H) : Prop where
  /-- Those of the forms do. -/
  forms : ∀ form ∈ x.forms, form.IsPlaced cs T
  /-- Those of the constants do. -/
  consts : Scope.IsPlaced cs T x.consts

lemma expandForms_staysIn (hev : EvaluationStays cs T evaluate) (hT : KeptByTypes T)
    {consts : Scope H} (hconsts : consts.IsPlaced cs T) {forms : List (Node H)}
    (hforms : ∀ form ∈ forms, form.IsPlaced cs T) :
    (expandForms evaluate consts forms).StaysIn cs (Expansion.IsPlaced cs T) := by
  induction forms generalizing consts with
  | nil => exact .ok ⟨by simp, hconsts⟩
  | cons form forms ih =>
    obtain ⟨hform, hforms⟩ := List.forall_mem_cons.1 hforms
    rw [expandForms]
    refine (expandNode_staysIn hev hT consts form hconsts hform).bind fun e he =>
      (ih (hconsts.merge he.consts) hforms).bind fun x hx => .ok ⟨?_, hx.consts⟩
    intro m hm
    rcases List.mem_append.1 hm with hm | hm
    · exact he.node m (Option.mem_toList.1 hm)
    · exact hx.forms m hm

end TypedLisp
