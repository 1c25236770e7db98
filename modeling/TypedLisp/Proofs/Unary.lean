import TypedLisp.Proofs.Arrow
import TypedLisp.Proofs.Reading.Faithful
import TypedLisp.Proofs.TypeErasure

/-!
# Functions of one parameter

Expansion leaves functions of one parameter and arrows of one argument.  A node reaches its output
along many ways: as the node that stands for a name, out of a list that is rebuilt, in a chain of
functions, or as the answer of a macro.  On each of them the output is unary as long as no list that
is rebuilt comes to start with the word `lambda`.  That is so if

* the word is an item of no list that starts with `let` or `def`, so that neither can the word be
  bound nor can another name be bound to it, and of no list whose first item does, so that no
  definition is dropped from in front of it;
* the macros of the program answer with unary nodes, other than the word itself.

What a macro answers is taken as it is, and a list that starts with a name whose place another node
takes is no special form: so neither condition can be done without.
-/

namespace TypedLisp

variable {H : Type}

namespace Node

/-! ### Parts of nodes -/

/-- A part of a node is the node itself or a part of what it quotes or of one of its items.  The
word at the start of a literal function counts as none. -/
inductive Part (m : Node H) : Node H → Prop where
  | self : Part m m
  | quoted {n : Node H} (span : Option Span) (type : Option (Node H)) (h : Part m n) :
    Part m ⟨.quoted n, span, type⟩
  | head {n : Node H} {items : List (Node H)} (span : Option Span) (type : Option (Node H))
    (hlambda : (⟨.list (n :: items), span, type⟩ : Node H).isLambda = false) (h : Part m n) :
    Part m ⟨.list (n :: items), span, type⟩
  | tail {head n : Node H} {items : List (Node H)} (span : Option Span) (type : Option (Node H))
    (hn : n ∈ items) (h : Part m n) : Part m ⟨.list (head :: items), span, type⟩

/-- A literal function has one parameter. -/
def TakesOne (n : Node H) : Prop :=
  ∀ params body, n.lambda? = some (params, body) → params.length = 1

/-- All literal functions in a node have one parameter, and the arrows in the types of all its parts
have one argument. -/
def Unary (n : Node H) : Prop :=
  ∀ m, Part m n → m.TakesOne ∧ m.type.IsCurried

variable {kind : Kind H} {items : List (Node H)} {inner n type : Node H} {span : Option Span}
  {type? : Option (Node H)}

lemma unary_leaf (hlist : ∀ items, kind ≠ .list items) (hquoted : ∀ inner, kind ≠ .quoted inner) :
    Unary ⟨kind, span, none⟩ := by
  intro m hm
  cases hm with
  | self =>
    refine ⟨fun params body h => ?_, isCurried_null⟩
    obtain ⟨_, _, _, _, _, h, -⟩ := exists_of_lambda? h
    cases h
    exact absurd rfl (hlist _)
  | quoted => exact absurd rfl (hquoted _)
  | head | tail => exact absurd rfl (hlist _)

lemma unary_quoted (h : inner.Unary) : (Node.quoted inner span).Unary := by
  intro m hm
  cases hm with
  | self => exact ⟨nofun, isCurried_null⟩
  | quoted _ _ hm => exact h m hm

lemma unary_list (hlambda : (Node.list items span).isLambda = false) (h : ∀ n ∈ items, n.Unary) :
    (Node.list items span).Unary := by
  intro m hm
  cases hm with
  | self =>
    refine ⟨fun params body hsome => ?_, isCurried_null⟩
    rw [isLambda, hsome] at hlambda
    cases hlambda
  | head _ _ _ hm => exact h _ List.mem_cons_self m hm
  | tail _ _ hn hm => exact h _ (List.mem_cons_of_mem _ hn) m hm

lemma unary_chainLambda {head param : Node H} (hhead : head.isAtom "lambda") (hparam : param.Unary)
    (hinner : inner.Unary) (paramsSpan span : Option Span) :
    (chainLambda head param paramsSpan span inner).Unary := by
  have hlambda :
      (chainLambda head param paramsSpan span inner).lambda? = some ([param], inner) := by
    simp [chainLambda, lambda?, list, list?, hhead]
  intro m hm
  cases hm with
  | self =>
    refine ⟨fun params body h => ?_, isCurried_null⟩
    obtain ⟨rfl, -⟩ := Prod.mk.inj (Option.some.inj (hlambda.symm.trans h))
    rfl
  | head _ _ h =>
    have : (chainLambda head param paramsSpan span inner).isLambda = false := h
    rw [isLambda, hlambda] at this
    cases this
  | tail _ _ hn hm =>
    have hparams : (Node.list [param] paramsSpan).Unary := unary_list rfl (by simpa using hparam)
    rcases List.mem_pair.1 hn with rfl | rfl
    · exact hparams m hm
    · exact hinner m hm

lemma Unary.withType (h : n.Unary) (htype : type.IsCurried) : (n.withType type).Unary := by
  obtain ⟨kind, span, type'⟩ := n
  have hown := (h _ .self).1
  intro m hm
  cases hm with
  | self =>
    refine ⟨hown, ?_⟩
    rw [Node.type, Node.withType]
    cases type.isNull
    · exact htype
    · exact isCurried_null
  | quoted _ _ hm => exact h m (.quoted _ _ hm)
  | head _ _ hlambda hm => exact h m (.head _ _ hlambda hm)
  | tail _ _ hn hm => exact h m (.tail _ _ hn hm)

/-! ### The word `lambda` -/

/-- A `let` or `def` form. -/
def IsBinding (n : Node H) : Prop :=
  n.headName? = some "let" ∨ n.headName? = some "def"

/-- In a node, the word `lambda` is an item of no list that starts with `let` or `def`, or with a
list that does. -/
def LambdaStays (n : Node H) : Prop :=
  ∀ m, Part m n → ∀ head items, m.list? = some (head :: items) →
    (∃ item ∈ head :: items, item.isAtom "lambda") → ¬ m.IsBinding ∧ ¬ head.IsBinding

lemma lambdaStays_of_isAtom {name : String} (h : n.isAtom name) : n.LambdaStays := by
  obtain ⟨kind, span, type⟩ := n
  intro m hm head items hitems
  cases hm with
  | self =>
    cases kind with
    | atom => cases hitems
    | _ => cases h
  | quoted | head | tail => cases h

lemma LambdaStays.of_quoted (h : LambdaStays ⟨.quoted inner, span, type?⟩) : inner.LambdaStays :=
  fun m hm => h m (.quoted _ _ hm)

lemma LambdaStays.item (h : LambdaStays ⟨.list items, span, type?⟩) (hn : n ∈ items) :
    n.LambdaStays := by
  cases items with
  | nil => cases hn
  | cons head items =>
    rcases List.mem_cons.1 hn with rfl | hn
    · cases hlambda : (⟨.list (n :: items), span, type?⟩ : Node H).isLambda with
      | true =>
        obtain ⟨⟨params, body⟩, hf⟩ := Option.isSome_iff_exists.1 hlambda
        obtain ⟨head, _, _, _, _, heq, hhead⟩ := exists_of_lambda? hf
        cases heq
        exact lambdaStays_of_isAtom hhead
      | false => exact fun m hm => h m (.head _ _ hlambda hm)
    · exact fun m hm => h m (.tail _ _ hn hm)

lemma lambdaStays_list_iff {head : Node H} :
    LambdaStays ⟨.list (head :: items), span, type?⟩ ↔ (∀ n ∈ head :: items, n.LambdaStays) ∧
      ((∃ item ∈ head :: items, item.isAtom "lambda") →
        ¬ IsBinding ⟨.list (head :: items), span, type?⟩ ∧ ¬ head.IsBinding) := by
  constructor
  · exact fun h => ⟨fun n hn => h.item hn, h _ .self _ _ rfl⟩
  · rintro ⟨h, hfirst⟩ m hm head' items' hitems
    cases hm with
    | self =>
      cases hitems
      exact hfirst
    | head _ _ _ hm => exact h _ List.mem_cons_self m hm head' items' hitems
    | tail _ _ hn hm => exact h _ (List.mem_cons_of_mem _ hn) m hm head' items' hitems

/-- A node that may take the place of another one: it is unary and not the word `lambda`. -/
structure IsReplacement (n : Node H) : Prop where
  unary : n.Unary
  not_lambda : n.isAtom "lambda" = false

end Node

/-! ### Scopes -/

/-- What names stand for may take their places, and `lambda` stands for nothing. -/
def Scope.Replaces (scope : Scope H) : Prop :=
  scope.Forall fun name n => name ≠ "lambda" ∧ n.IsReplacement

lemma Scope.Replaces.not_contains {scope : Scope H} (h : Replaces scope) :
    scope.contains "lambda" = false := by
  rw [Bindings.contains]
  cases hget : scope.get? "lambda" with
  | none => rfl
  | some n => exact absurd rfl (h _ n hget).1

/-! ### Expansion -/

/-- What a node expands to is unary, and the word `lambda` only comes of itself. -/
structure Expanded.IsUnaryOf (e : Expanded H) (n : Node H) : Prop where
  unary : ∀ m, e.node? = some m → m.Unary
  not_lambda : n.isAtom "lambda" = false → ∀ m, e.node? = some m → m.isAtom "lambda" = false
  consts : Scope.Replaces e.consts

namespace Expanded.IsUnaryOf

variable {e : Expanded H} {n m : Node H}

lemma isReplacement (h : e.IsUnaryOf n) (hn : n.isAtom "lambda" = false) (hm : e.node? = some m) :
    m.IsReplacement :=
  ⟨h.unary m hm, h.not_lambda hn m hm⟩

lemma of_isReplacement (h : ∀ m, e.node? = some m → m.IsReplacement)
    (hconsts : Scope.Replaces e.consts) : e.IsUnaryOf n :=
  ⟨fun m hm => (h m hm).unary, fun _ m hm => (h m hm).not_lambda, hconsts⟩

end Expanded.IsUnaryOf

lemma isUnaryOf_ofNode {n m : Node H} (h : m.IsReplacement) : (Expanded.ofNode m).IsUnaryOf n :=
  .of_isReplacement (by rintro _ ⟨⟩; exact h) Bindings.forall_empty

/-! ### Lists that are rebuilt -/

section

variable {evaluate : Scope H → Node H → Outcome (Node H)} {scope : Scope H}

/-- The name of a special form. -/
def SpecialForm.name : SpecialForm → String
  | letForm => "let"
  | defForm => "def"
  | lambdaForm => "lambda"

/-- A special form starts with its name. -/
lemma SpecialForm.exists_of_of? {items : List (Node H)} {form : SpecialForm}
    (h : SpecialForm.of? items scope = some form) :
    ∃ head parts, items = head :: parts ∧ head.atom? = some form.name := by
  unfold SpecialForm.of? at h
  split at h
  · next head parts =>
    split at h
    · next name hname =>
      refine ⟨head, parts, rfl, hname.trans (congrArg some ?_)⟩
      split at h
      · cases h
      · unfold SpecialForm.ofName? at h
        split_ifs at h with hlet hdef hlambda <;> cases h
        · exact hlet
        · exact hdef
        · exact hlambda
    · cases h
  · cases h

/-- A special form other than `lambda` starts with `let` or `def`. -/
lemma SpecialForm.isBinding_of_of? {items : List (Node H)} {form : SpecialForm}
    (h : SpecialForm.of? items scope = some form) (hne : form ≠ .lambdaForm) (span : Option Span)
    (type? : Option (Node H)) : Node.IsBinding ⟨.list items, span, type?⟩ := by
  obtain ⟨head, parts, rfl, hname⟩ := SpecialForm.exists_of_of? h
  cases form with
  | letForm => exact .inl hname
  | defForm => exact .inr hname
  | lambdaForm => exact absurd rfl hne

lemma exists_node_of_expandLambda {span : Option Span} {type : Node H} {items : List (Node H)}
    {e : Expanded H} (h : expandLambda evaluate scope span type items = .ok e) :
    ∃ m, e.node? = some m := by
  cases LambdaShape.of items with
  | wellFormed head params paramsSpan paramsType body =>
    rw [expandLambda] at h
    split at h
    · cases h
    · obtain ⟨x, -, h⟩ := Except.exists_of_bind_eq_ok h
      split at h
      · cases h
      · obtain ⟨chain, -, h⟩ := Except.exists_of_bind_eq_ok h
        obtain rfl := Except.ok.inj h
        exact ⟨_, rfl⟩
  | noList head body hparams =>
    rw [expandLambda_of_noList _ hparams] at h
    cases h
  | notThree hlength =>
    rw [expandLambda_of_notThree _ hlength] at h
    cases h

/-- A call of a macro expands to what the body of the macro evaluates to. -/
lemma Macro.exists_of_expand {m : Macro H} {args : List (Node H)} {e : Expanded H}
    (h : m.expand evaluate args = .ok e) :
    ∃ env v, evaluate env m.body = .ok v ∧ e = Expanded.ofNode v := by
  rw [Macro.expand] at h
  split at h
  · cases h
  · next envName argsName _ =>
    cases hv : evaluate (Macro.environment envName argsName args) m.body with
    | error err => rw [hv] at h; cases h
    | ok v =>
      rw [hv] at h
      exact ⟨_, v, hv, (Except.ok.inj h).symm⟩

/-- Only `let` and `def` forms can expand to nothing. -/
lemma exists_node_of_not_isBinding {n : Node H} (hn : ¬ n.IsBinding) {e : Expanded H}
    (h : expandNode evaluate scope n = .ok e) : ∃ m, e.node? = some m := by
  obtain ⟨kind, span, type⟩ := n
  cases kind with
  | atom name =>
    rw [expandNode] at h
    split at h <;> obtain rfl := Except.ok.inj h
    · exact ⟨_, rfl⟩
    · exact ⟨_, rfl⟩
  | quoted inner =>
    rw [expandNode] at h
    obtain ⟨x, -, h⟩ := Except.exists_of_bind_eq_ok h
    obtain rfl := Except.ok.inj h
    exact ⟨_, rfl⟩
  | list items =>
    rw [expandNode] at h
    cases hform : SpecialForm.of? items scope with
    | some form =>
      rw [hform] at h
      have hform : form = .lambdaForm := by
        by_contra hne
        exact hn (SpecialForm.isBinding_of_of? hform hne span type)
      subst hform
      exact exists_node_of_expandLambda h
    | none =>
      rw [hform] at h
      cases hcall : Macro.of? items scope with
      | some m =>
        rw [hcall] at h
        obtain ⟨env, v, -, rfl⟩ := m.exists_of_expand h
        exact ⟨v, rfl⟩
      | none =>
        rw [hcall] at h
        obtain ⟨x, -, h⟩ := Except.exists_of_bind_eq_ok h
        obtain rfl := Except.ok.inj h
        exact ⟨_, rfl⟩
  | str | null | keyword | value | procedure =>
    rw [expandNode] at h
    · obtain rfl := Except.ok.inj h
      exact ⟨_, rfl⟩
    all_goals simp

/-- What the items of a list expand to: if it starts with the word `lambda`, then the word is one of
the items, and it is the first of them if that is no `let` or `def` form. -/
structure ItemsAreUnary (items : List (Node H)) (nodes : List (Node H)) (consts : Scope H) :
    Prop where
  unary : ∀ m ∈ nodes, m.Unary
  consts : Scope.Replaces consts
  lambda : ∀ m ms, nodes = m :: ms → m.isAtom "lambda" → ∃ item ∈ items, item.isAtom "lambda"
  first : ∀ m ms, nodes = m :: ms → m.isAtom "lambda" → ∀ head tail, items = head :: tail →
    ¬ head.IsBinding → head.isAtom "lambda"

lemma ItemsAreUnary.cons {n : Node H} {ns nodes : List (Node H)} {e : Expanded H}
    {consts : Scope H} (hexpand : expandNode evaluate scope n = .ok e) (hn : e.IsUnaryOf n)
    (hns : ItemsAreUnary ns nodes consts) :
    ItemsAreUnary (n :: ns) (e.node?.toList ++ nodes) (e.consts.merge consts) := by
  have hconsts := hn.consts.merge hns.consts
  cases hnode : e.node? with
  | none =>
    refine ⟨hns.unary, hconsts, fun m ms heq hm => ?_, ?_⟩
    · obtain ⟨item, hitem, h⟩ := hns.lambda m ms heq hm
      exact ⟨item, List.mem_cons_of_mem _ hitem, h⟩
    · rintro m ms - - head tail ⟨⟩ hbinding
      obtain ⟨m, hm⟩ := exists_node_of_not_isBinding hbinding hexpand
      rw [hnode] at hm
      cases hm
  | some m =>
    have hself : m.isAtom "lambda" → n.isAtom "lambda" := by
      intro hm
      by_contra hn'
      rw [hn.not_lambda (by simpa using hn') m hnode] at hm
      cases hm
    refine ⟨?_, hconsts, ?_, ?_⟩
    · rw [Option.toList_some, List.singleton_append, List.forall_mem_cons]
      exact ⟨hn.unary m hnode, hns.unary⟩
    · rintro _ _ ⟨⟩ hm
      exact ⟨n, List.mem_cons_self, hself hm⟩
    · rintro _ _ ⟨⟩ hm head tail ⟨⟩ -
      exact hself hm

/-- A list that is rebuilt is no literal function. -/
lemma ItemsAreUnary.isLambda_eq_false {items nodes : List (Node H)} {consts : Scope H}
    {span : Option Span} {type? : Option (Node H)} (h : ItemsAreUnary items nodes consts)
    (hstays : Node.LambdaStays ⟨.list items, span, type?⟩) (hscope : Scope.Replaces scope)
    (hform : SpecialForm.of? items scope = none) (span' : Option Span) :
    (Node.list nodes span').isLambda = false := by
  rw [← Bool.not_eq_true]
  intro hlambda
  obtain ⟨⟨params, body⟩, hf⟩ := Option.isSome_iff_exists.1 hlambda
  obtain ⟨head, paramsSpan, paramsType, span'', type, heq, hhead⟩ :=
    Node.exists_of_lambda? hf
  have hnodes : nodes = _ :: _ := Kind.list.inj (congrArg Node.kind heq)
  have hword := h.lambda _ _ hnodes hhead
  cases items with
  | nil => simp at hword
  | cons first items =>
    have hbinding : ¬ first.IsBinding := (hstays _ .self first items rfl hword).2
    have hfirst : first.atom? = some "lambda" :=
      eq_of_beq (h.first _ _ hnodes hhead first items rfl hbinding)
    simp [SpecialForm.of?, hfirst, hscope.not_contains, SpecialForm.ofName?] at hform

/-- The pairs of a `let` or `def` form and the body of a `let` form: the word `lambda` is none of
them. -/
def ArePairs (parts : List (Node H)) : Prop :=
  ∀ p ∈ parts, p.LambdaStays ∧ p.isAtom "lambda" = false

lemma arePairs_tail {items : List (Node H)} {form : SpecialForm} {span : Option Span}
    {type? : Option (Node H)} (hstays : Node.LambdaStays ⟨.list items, span, type?⟩)
    (hform : SpecialForm.of? items scope = some form) (hne : form ≠ .lambdaForm) :
    ArePairs items.tail := by
  have hbinding := SpecialForm.isBinding_of_of? hform hne span type?
  obtain ⟨head, parts, rfl, -⟩ := SpecialForm.exists_of_of? hform
  intro p hp
  refine ⟨hstays.item (List.mem_of_mem_tail hp), ?_⟩
  rw [← Bool.not_eq_true]
  intro hlambda
  exact (hstays _ .self head parts rfl ⟨p, List.mem_of_mem_tail hp, hlambda⟩).1 hbinding

lemma ArePairs.name_ne {target : Node H} {parts : List (Node H)} (h : ArePairs (target :: parts))
    {name : String} (hname : target.atom? = some name) : name ≠ "lambda" := by
  rintro rfl
  have := (h target List.mem_cons_self).2
  simp [Node.isAtom, hname] at this

lemma isAtom_head_of_lambdaForm {items : List (Node H)}
    (h : SpecialForm.of? items scope = some .lambdaForm) :
    ∀ head, items.head? = some head → head.isAtom "lambda" := by
  obtain ⟨head, parts, rfl, hname⟩ := SpecialForm.exists_of_of? h
  rintro _ ⟨⟩
  exact beq_of_eq hname

/-- An evaluation gives only what may take the place of a node. -/
def GivesReplacements (evaluate : Scope H → Node H → Outcome (Node H)) : Prop :=
  ∀ env n v, evaluate env n = .ok v → v.IsReplacement

lemma Macro.isUnaryOf_expand (hev : GivesReplacements evaluate) {m : Macro H} {args : List (Node H)}
    {e : Expanded H} (h : m.expand evaluate args = .ok e) (n : Node H) : e.IsUnaryOf n := by
  obtain ⟨env, v, hv, rfl⟩ := m.exists_of_expand h
  exact isUnaryOf_ofNode (hev env _ v hv)

mutual

/-- Expansion gives unary nodes, where names and macros stand for such nodes. -/
theorem expandNode_isUnaryOf (hev : GivesReplacements evaluate) :
    ∀ (scope : Scope H) (n : Node H), Scope.Replaces scope → n.LambdaStays →
      ∀ {e}, expandNode evaluate scope n = .ok e → e.IsUnaryOf n
  | scope, ⟨.atom name, span, type⟩, hscope, hn, e, h => by
    rw [expandNode] at h
    split at h <;> obtain rfl := Except.ok.inj h
    · next value hvalue => exact isUnaryOf_ofNode (hscope name value hvalue).2
    · refine ⟨?_, ?_, Bindings.forall_empty⟩
      · rintro _ ⟨⟩
        exact (Node.unary_leaf (by simp) (by simp)).withType (Node.isCurried_curry _)
      · rintro hname _ ⟨⟩
        exact hname
  | scope, ⟨.quoted inner, span, type⟩, hscope, hn, e, h => by
    rw [expandNode] at h
    obtain ⟨x, hx, h⟩ := Except.exists_of_bind_eq_ok h
    obtain rfl := Except.ok.inj h
    have hinner := expandNode_isUnaryOf hev scope inner hscope hn.of_quoted hx
    have hunary : (x.node?.getD .null).Unary := by
      cases hnode : x.node? with
      | none => exact Node.unary_leaf (by simp) (by simp)
      | some m => exact hinner.unary m hnode
    refine .of_isReplacement ?_ hinner.consts
    rintro _ ⟨⟩
    exact ⟨(Node.unary_quoted hunary).withType (Node.isCurried_curry _), rfl⟩
  | scope, ⟨.list items, span, type⟩, hscope, hn, e, h => by
    rw [expandNode] at h
    cases hform : SpecialForm.of? items scope with
    | some form =>
      rw [hform] at h
      cases form with
      | letForm =>
        obtain ⟨hnode, hconsts⟩ :=
          expandLet_replaces hev scope span items hscope (arePairs_tail hn hform nofun) h
        exact .of_isReplacement hnode hconsts
      | defForm =>
        obtain ⟨hnode, hconsts⟩ :=
          expandDef_replaces hev scope span items hscope (arePairs_tail hn hform nofun) h
        exact .of_isReplacement (by simp [hnode]) hconsts
      | lambdaForm =>
        obtain ⟨hnode, hconsts⟩ := expandLambda_replaces hev scope span _ items hscope
          (Node.isCurried_curry _) (fun n h => hn.item h) (isAtom_head_of_lambdaForm hform) h
        exact .of_isReplacement hnode hconsts
    | none =>
      rw [hform] at h
      cases hcall : Macro.of? items scope with
      | some m =>
        rw [hcall] at h
        exact m.isUnaryOf_expand hev h _
      | none =>
        rw [hcall] at h
        obtain ⟨⟨nodes, consts⟩, hitems, h⟩ := Except.exists_of_bind_eq_ok h
        obtain rfl := Except.ok.inj h
        have hitems := expandItems_areUnary hev scope items hscope (fun n h => hn.item h) hitems
        have hlambda := hitems.isLambda_eq_false hn hscope hform span
        refine .of_isReplacement ?_ hitems.consts
        rintro _ ⟨⟩
        exact ⟨(Node.unary_list hlambda hitems.unary).withType (Node.isCurried_curry _), rfl⟩
  | scope, ⟨.str _, span, type⟩, _, _, e, h | scope, ⟨.null, span, type⟩, _, _, e, h
  | scope, ⟨.keyword _, span, type⟩, _, _, e, h | scope, ⟨.value _, span, type⟩, _, _, e, h
  | scope, ⟨.procedure _, span, type⟩, _, _, e, h => by
    rw [expandNode] at h
    obtain rfl := Except.ok.inj h
    exact isUnaryOf_ofNode
      ⟨(Node.unary_leaf (by simp) (by simp)).withType (Node.isCurried_curry _), rfl⟩
    all_goals simp

theorem expandItems_areUnary (hev : GivesReplacements evaluate) :
    ∀ (scope : Scope H) (ns : List (Node H)), Scope.Replaces scope → (∀ n ∈ ns, n.LambdaStays) →
      ∀ {x}, expandItems evaluate scope ns = .ok x → ItemsAreUnary ns x.1 x.2
  | scope, [], hscope, hns, x, h => by
    obtain rfl := Except.ok.inj h
    exact ⟨by simp, Bindings.forall_empty, by simp, by simp⟩
  | scope, n :: ns, hscope, hns, x, h => by
    rw [expandItems] at h
    obtain ⟨e, he, h⟩ := Except.exists_of_bind_eq_ok h
    obtain ⟨⟨nodes, consts⟩, hrest, h⟩ := Except.exists_of_bind_eq_ok h
    obtain rfl := Except.ok.inj h
    obtain ⟨hn, hns⟩ := List.forall_mem_cons.1 hns
    exact .cons he (expandNode_isUnaryOf hev scope n hscope hn he)
      (expandItems_areUnary hev scope ns hscope hns hrest)

theorem expandLet_replaces (hev : GivesReplacements evaluate) :
    ∀ (scope : Scope H) (span : Option Span) (items : List (Node H)), Scope.Replaces scope →
      ArePairs items.tail → ∀ {e}, expandLet evaluate scope span items = .ok e →
        (∀ m, e.node? = some m → m.IsReplacement) ∧ Scope.Replaces e.consts
  | scope, span, [], hscope, hparts, e, h => by cases h
  | scope, span, _ :: parts, hscope, hparts, e, h => by
    rw [expandLet] at h
    split at h
    · cases h
    · exact expandLetParts_replaces hev scope .empty parts hscope Bindings.forall_empty hparts h

theorem expandLetParts_replaces (hev : GivesReplacements evaluate) :
    ∀ (scope bound : Scope H) (parts : List (Node H)), Scope.Replaces scope →
      Scope.Replaces bound → ArePairs parts →
      ∀ {e}, expandLetParts evaluate scope bound parts = .ok e →
        (∀ m, e.node? = some m → m.IsReplacement) ∧ Scope.Replaces e.consts
  | scope, bound, [], hscope, hbound, hparts, e, h => by
    obtain rfl := Except.ok.inj h
    exact ⟨nofun, Bindings.forall_empty⟩
  | scope, bound, [body], hscope, hbound, hparts, e, h => by
    obtain ⟨hstays, hlambda⟩ := hparts body List.mem_cons_self
    have he := expandNode_isUnaryOf hev _ body (hscope.merge hbound) hstays h
    exact ⟨fun m hm => he.isReplacement hlambda hm, he.consts⟩
  | scope, bound, target :: value :: parts, hscope, hbound, hparts, e, h => by
    rw [expandLetParts] at h
    split at h
    · cases h
    · next name hname =>
      obtain ⟨x, hx, h⟩ := Except.exists_of_bind_eq_ok h
      obtain ⟨hstays, hlambda⟩ := hparts value (by simp)
      have hvalue := expandNode_isUnaryOf hev scope value hscope hstays hx
      split at h
      · cases h
      · next node hnode =>
        have hbound' := hbound.insert ⟨hparts.name_ne hname, hvalue.isReplacement hlambda hnode⟩
        exact expandLetParts_replaces hev scope _ parts hscope hbound'
          (fun p hp => hparts p (by simp [hp])) h

theorem expandDef_replaces (hev : GivesReplacements evaluate) :
    ∀ (scope : Scope H) (span : Option Span) (items : List (Node H)), Scope.Replaces scope →
      ArePairs items.tail → ∀ {e}, expandDef evaluate scope span items = .ok e →
        e.node? = none ∧ Scope.Replaces e.consts
  | scope, span, [], hscope, hparts, e, h => by cases h
  | scope, span, _ :: parts, hscope, hparts, e, h => by
    rw [expandDef] at h
    split at h
    · cases h
    · obtain ⟨consts, hconsts, h⟩ := Except.exists_of_bind_eq_ok h
      obtain rfl := Except.ok.inj h
      exact ⟨rfl, expandDefParts_replaces hev scope .empty parts hscope Bindings.forall_empty hparts
        hconsts⟩

theorem expandDefParts_replaces (hev : GivesReplacements evaluate) :
    ∀ (scope bound : Scope H) (parts : List (Node H)), Scope.Replaces scope →
      Scope.Replaces bound → ArePairs parts →
      ∀ {consts}, expandDefParts evaluate scope bound parts = .ok consts → Scope.Replaces consts
  | scope, bound, [], hscope, hbound, hparts, consts, h
  | scope, bound, [_], hscope, hbound, hparts, consts, h => by
    obtain rfl := Except.ok.inj h
    exact hbound
  | scope, bound, target :: value :: parts, hscope, hbound, hparts, consts, h => by
    rw [expandDefParts] at h
    split at h
    · cases h
    · next name hname =>
      obtain ⟨x, hx, h⟩ := Except.exists_of_bind_eq_ok h
      obtain ⟨hstays, hlambda⟩ := hparts value (by simp)
      have hvalue := expandNode_isUnaryOf hev scope value hscope hstays hx
      split at h
      · cases h
      · next node hnode =>
        have hbound' := hbound.insert ⟨hparts.name_ne hname, hvalue.isReplacement hlambda hnode⟩
        exact expandDefParts_replaces hev scope _ parts hscope hbound'
          (fun p hp => hparts p (by simp [hp])) h

theorem expandLambda_replaces (hev : GivesReplacements evaluate) :
    ∀ (scope : Scope H) (span : Option Span) (type : Node H) (items : List (Node H)),
      Scope.Replaces scope → type.IsCurried → (∀ n ∈ items, n.LambdaStays) →
      (∀ head, items.head? = some head → head.isAtom "lambda") →
      ∀ {e}, expandLambda evaluate scope span type items = .ok e →
        (∀ m, e.node? = some m → m.IsReplacement) ∧ Scope.Replaces e.consts
  | scope, span, type, items, hscope, htype, hitems, hhead, e, h =>
    match items, LambdaShape.of items, hitems, hhead, h with
    | [head, ⟨.list params, paramsSpan, paramsType⟩, body], _, hitems, hhead, h => by
      rw [expandLambda] at h
      split at h
      · cases h
      · next hempty =>
        obtain ⟨x, hx, h⟩ := Except.exists_of_bind_eq_ok h
        have hbody := expandNode_isUnaryOf hev scope body hscope (hitems body (by simp)) hx
        split at h
        · cases h
        · next inner hinner =>
          obtain ⟨chain, hchain, h⟩ := Except.exists_of_bind_eq_ok h
          obtain rfl := Except.ok.inj h
          have hparams := hitems ⟨.list params, paramsSpan, paramsType⟩ (by simp)
          obtain ⟨hunary, hatom⟩ := expandParams_unary hev scope head paramsSpan span inner params
            hscope (hhead head rfl) (hbody.unary inner hinner) (fun p hp => hparams.item hp) hchain
          refine ⟨?_, hbody.consts⟩
          rintro _ ⟨⟩
          exact ⟨hunary.withType htype, hatom (by simpa using hempty)⟩
    | [head, params, body], .noList _ _ hparams, _, _, h => by
      rw [expandLambda_of_noList _ hparams] at h
      cases h
    | items, .notThree hlength, _, _, h => by
      rw [expandLambda_of_notThree _ hlength] at h
      cases h

theorem expandParams_unary (hev : GivesReplacements evaluate) :
    ∀ (scope : Scope H) (head : Node H) (paramsSpan span : Option Span) (body : Node H)
      (params : List (Node H)), Scope.Replaces scope → head.isAtom "lambda" → body.Unary →
      (∀ p ∈ params, p.LambdaStays) →
      ∀ {chain}, expandParams evaluate scope head paramsSpan span body params = .ok chain →
        chain.Unary ∧ (params ≠ [] → chain.isAtom "lambda" = false)
  | scope, head, paramsSpan, span, body, [], hscope, hhead, hbody, hparams, chain, h => by
    obtain rfl := Except.ok.inj h
    exact ⟨hbody, nofun⟩
  | scope, head, paramsSpan, span, body, param :: params, hscope, hhead, hbody, hparams, chain,
      h => by
    rw [expandParams] at h
    obtain ⟨inner, hinner, h⟩ := Except.exists_of_bind_eq_ok h
    obtain ⟨x, hx, h⟩ := Except.exists_of_bind_eq_ok h
    obtain ⟨hparam, hparams⟩ := List.forall_mem_cons.1 hparams
    have hinner := (expandParams_unary hev scope head paramsSpan span body params hscope hhead hbody
      hparams hinner).1
    have hparam := expandNode_isUnaryOf hev scope param hscope hparam hx
    split at h
    · cases h
    · next p hp =>
      obtain rfl := Except.ok.inj h
      exact ⟨Node.unary_chainLambda hhead (hparam.unary p hp) hinner paramsSpan span, fun _ => rfl⟩

end

/-! ### Programs -/

theorem expandForms_unary (hev : GivesReplacements evaluate) {consts : Scope H}
    {forms : List (Node H)} {program : Expansion H} (hconsts : Scope.Replaces consts)
    (hforms : ∀ form ∈ forms, form.LambdaStays)
    (h : expandForms evaluate consts forms = .ok program) :
    (∀ form ∈ program.forms, form.Unary) ∧ Scope.Replaces program.consts := by
  induction forms generalizing consts program with
  | nil =>
    obtain rfl := Except.ok.inj h
    exact ⟨by simp, hconsts⟩
  | cons form forms ih =>
    rw [expandForms] at h
    obtain ⟨e, he, h⟩ := Except.exists_of_bind_eq_ok h
    obtain ⟨rest, hrest, h⟩ := Except.exists_of_bind_eq_ok h
    obtain rfl := Except.ok.inj h
    obtain ⟨hform, hforms⟩ := List.forall_mem_cons.1 hforms
    have he := expandNode_isUnaryOf hev consts form hconsts hform he
    obtain ⟨hunary, hconsts⟩ := ih (hconsts.merge he.consts) hforms hrest
    refine ⟨fun n hn => ?_, hconsts⟩
    rcases List.mem_append.1 hn with hn | hn
    · exact he.unary n (Option.mem_toList.1 hn)
    · exact hunary n hn

end

/-- The macros of a program answer only what `P` holds of: the program expands in the same way if
the bodies of macros are evaluated as far only as that gives what `P` holds of. -/
def MacrosAnswer [Host H] (P : Node H → Prop) (depth : Nat) (forms : List (Node H)) : Prop :=
  ∃ answers : Scope H → Node H → Outcome (Node H),
    (∀ env n v, answers env n = .ok v → evaluate depth env n = .ok v ∧ P v) ∧
      expandForms answers .empty forms = expandProgram depth .empty forms

/-- **Expansion leaves functions of one parameter.**  If the word `lambda` is an item of no list
that starts with `let` or `def`, or with a list that does, and the macros of a program answer with
unary nodes other than this word, then all forms and all constants of the expanded program are
unary. -/
theorem unary_of_expandSource [Host H] {depth : Nat} {source : String} {forms : List (Node H)}
    {program : Expansion H} (hread : read source = .ok forms)
    (hforms : ∀ form ∈ forms, form.LambdaStays)
    (hmacros : MacrosAnswer Node.IsReplacement depth forms)
    (h : expandSource depth source = .ok program) :
    (∀ form ∈ program.forms, form.Unary) ∧
      ∀ name value, program.consts.get? name = some value → value.Unary := by
  rw [expandSource, hread] at h
  obtain ⟨answers, hanswers, heq⟩ := hmacros
  have hexpand : expandForms answers .empty forms = .ok program := heq.trans h
  have hev : GivesReplacements answers := fun env n v hv => (hanswers env n v hv).2
  obtain ⟨hunary, hconsts⟩ := expandForms_unary hev Bindings.forall_empty hforms hexpand
  exact ⟨hunary, fun name value hvalue => (hconsts name value hvalue).2.unary⟩

/-- What a computation answers, if that is a name other than `lambda` and has no type. -/
def Outcome.onlyName : Outcome (Node H) → Outcome (Node H)
  | .ok ⟨.atom name, span, none⟩ =>
    if name = "lambda" then .error .endless else .ok ⟨.atom name, span, none⟩
  | _ => .error .endless

lemma Outcome.of_onlyName_eq_ok {r : Outcome (Node H)} {v : Node H} (h : r.onlyName = .ok v) :
    r = .ok v ∧ v.IsReplacement := by
  unfold onlyName at h
  split at h
  · split at h
    · cases h
    · next name span hname =>
      obtain rfl := Except.ok.inj h
      exact ⟨rfl, Node.unary_leaf nofun nofun, by simpa [Node.isAtom, Node.atom?] using hname⟩
  · cases h

/-- A function of two parameters whose body a macro gives. -/
theorem unary_of_expandSource_of_macro :
    ∃ (forms : List (Node Empty)) (program : Expansion Empty),
      read "(lambda (a b) ((macro (env args) (first args)) x))" = .ok forms ∧
      (∀ form ∈ forms, form.LambdaStays) ∧ MacrosAnswer Node.IsReplacement 4 forms ∧
      expandSource 4 "(lambda (a b) ((macro (env args) (first args)) x))" = .ok program ∧
      (∀ form ∈ program.forms, form.Unary) ∧
      ∀ name value, program.consts.get? name = some value → value.Unary := by
  obtain ⟨forms, program, hread, hforms, hmacros, h⟩ :
      ∃ (forms : List (Node Empty)) (program : Expansion Empty),
        read "(lambda (a b) ((macro (env args) (first args)) x))" = .ok forms ∧
        (∀ form ∈ forms, form.LambdaStays) ∧ MacrosAnswer Node.IsReplacement 4 forms ∧
        expandSource 4 "(lambda (a b) ((macro (env args) (first args)) x))" = .ok program := by
    refine ⟨_, _, by cbv, ?_, ?_, by cbv⟩
    · have hatom (name : String) (span : Option Span) :
          (⟨.atom name, span, none⟩ : Node Empty).LambdaStays := by
        have hname : (⟨.atom name, span, none⟩ : Node Empty).isAtom name := by
          simp [Node.isAtom, Node.atom?]
        exact Node.lambdaStays_of_isAtom hname
      simp [Node.lambdaStays_list_iff, hatom, Node.isAtom, Node.atom?, Node.IsBinding,
        Node.headName?]
    · exact ⟨fun env n => (evaluate 4 env n).onlyName, fun _ _ _ => Outcome.of_onlyName_eq_ok,
        by cbv⟩
  exact ⟨forms, program, hread, hforms, hmacros, h, unary_of_expandSource hread hforms hmacros h⟩

/-- A source on which expansion succeeds and leaves a function of two parameters. -/
def LeavesTwoParameters (source : String) : Prop :=
  ∃ program : Expansion Empty, expandSource 2 source = .ok program ∧
    ∃ form ∈ program.forms, ∃ m, Node.Part m form ∧ ∃ params body,
      m.lambda? = some (params, body) ∧ params.length = 2

/-- A source on which expansion succeeds and leaves an arrow of several arguments in an
annotation. -/
def LeavesFlatArrow (source : String) : Prop :=
  ∃ program : Expansion Empty, expandSource 2 source = .ok program ∧
    ∃ m, Node.Occurs program.forms true m ∧ ∃ head tail,
      m.list? = some (head :: tail) ∧ head.isArrowHead ∧ 2 < tail.length

/-- Where `lambda` is bound to itself, where a definition is dropped from the start of a list, and
where a macro answers with a function, a function of two parameters is left as it is.  In the
annotation of the word `lambda` at the head of a function, and under a quotation in an annotation,
so is an arrow of two arguments. -/
theorem exists_part_of_two_parameters :
    (LeavesTwoParameters "(let lambda lambda (lambda (a b) c))" ∧
      LeavesTwoParameters "((def x 1) lambda (a b) c)" ∧
      LeavesTwoParameters "((macro (env args) ''(lambda (a b) c)) 1)") ∧
    LeavesFlatArrow "(lambda: (-> a b c) (x) y)" ∧ LeavesFlatArrow "x: '(-> a b c)" := by
  have hown (name : String) (span : Option Span) (type? : Option (Node Empty)) (type : Node Empty) :
      ¬ (⟨.atom name, span, type?⟩ : Node Empty).HasOwnType type := by
    rintro ⟨⟨text, htext⟩, -⟩
    cases htext
  refine ⟨⟨⟨_, by cbv, _, List.mem_cons_self, _, .self, _, _, rfl, rfl⟩,
    ⟨_, by cbv, _, List.mem_cons_self, _, .self, _, _, rfl, rfl⟩,
    ⟨_, by cbv, _, List.mem_cons_self, _, .quoted _ _ .self, _, _, rfl, rfl⟩⟩, ?_, ?_⟩
  · refine ⟨_, by cbv, _, .type (.item (.form List.mem_cons_self) rfl List.mem_cons_self) rfl
      (hown _ _ _ _), ?_⟩
    exact ⟨_, _, rfl, rfl, by decide⟩
  · refine ⟨_, by cbv, _, .inner (.type (.form List.mem_cons_self) rfl (hown _ _ _ _)) rfl, ?_⟩
    exact ⟨_, _, rfl, rfl, by decide⟩

end TypedLisp
