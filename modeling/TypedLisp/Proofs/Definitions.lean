import Mathlib
import TypedLisp.Proofs.Unary

/-!
# Definitions that are kept

A `def` form may stand in any part of a program, and what it defines is passed on together with the
expansion of the form around it.  This file says for which parts this is done.  A list passes on
what its items define, a quotation what it quotes, and a `let` and a `lambda` form pass on what
their bodies define.  The values of the names in a `let` or `def` form, and the parameters of a
`lambda` form, are expanded too, but what they define is dropped.

So the names that a program without macros defines are bound after its expansion, except for those
that are defined in dropped parts only.  Names of the special forms must not be bound, since this
would change which lists are special forms.
-/

namespace TypedLisp

variable {H : Type}

/-! ### Parts of special forms -/

/-- The names in the pairs of a `let` or `def` form. -/
@[simp] def pairNames : List (Node H) → List String
  | target :: _ :: parts => target.atom?.toList ++ pairNames parts
  | _ => []

/-- The values in the pairs of a `let` or `def` form. -/
@[simp] def pairValues : List (Node H) → List (Node H)
  | _ :: value :: parts => value :: pairValues parts
  | _ => []

/-- What stands behind the pairs: the body of a `let` form. -/
@[simp] def afterPairs : List (Node H) → List (Node H)
  | _ :: _ :: parts => afterPairs parts
  | parts => parts

/-- A name that makes a list a special form or a macro. -/
def IsReserved (name : String) : Prop :=
  name ∈ ["let", "def", "lambda", "macro"]

namespace Node

/-- The parts of a node that pass on what they define. -/
def keptParts (n : Node H) : List (Node H) :=
  match n.kind with
  | .quoted inner => [inner]
  | .list items =>
    match SpecialForm.of? items .empty with
    | some .letForm => afterPairs items.tail
    | some .defForm => []
    | some .lambdaForm => items.drop 2
    | none => items
  | _ => []

/-- The parts of a node that are expanded without passing on what they define. -/
def droppedParts (n : Node H) : List (Node H) :=
  match n.kind with
  | .list items =>
    match SpecialForm.of? items .empty with
    | some .letForm | some .defForm => pairValues items.tail
    | some .lambdaForm => (items[1]?.bind list?).getD []
    | none => []
  | _ => []

/-- All parts of a node that are expanded with it. -/
def parts (n : Node H) : List (Node H) :=
  n.keptParts ++ n.droppedParts

/-- The names that a `let` or `def` form binds. -/
def boundNames (n : Node H) : List String :=
  match n.kind with
  | .list items =>
    match SpecialForm.of? items .empty with
    | some .letForm | some .defForm => pairNames items.tail
    | some .lambdaForm | none => []
  | _ => []

/-- The names that a `def` form defines. -/
def definedNames (n : Node H) : List String :=
  match n.kind with
  | .list items =>
    match SpecialForm.of? items .empty with
    | some .defForm => pairNames items.tail
    | some .letForm | some .lambdaForm | none => []
  | _ => []

/-- A name is defined in a node, or in one of its parts, of which `parts` gives those of one
node. -/
inductive Defines (parts : Node H → List (Node H)) (name : String) : Node H → Prop where
  /-- The node is a `def` form of the name. -/
  | here {n : Node H} (h : name ∈ n.definedNames) : Defines parts name n
  /-- A part defines the name. -/
  | part {n m : Node H} (hm : m ∈ parts n) (h : Defines parts name m) : Defines parts name n

/-- There is no macro in a node and its parts, and the names that are bound there are not
reserved. -/
inductive Ordinary : Node H → Prop where
  | mk {n : Node H} (hcall : ∀ items, n.kind = .list items → Macro.of? items .empty = none)
    (hnames : ∀ name ∈ n.boundNames, ¬ IsReserved name) (hparts : ∀ m ∈ n.parts, m.Ordinary) :
    Ordinary n

/-- Nothing is defined in dropped parts. -/
inductive DropsNothing : Node H → Prop where
  | mk {n : Node H} (hdropped : ∀ m ∈ n.droppedParts, ∀ name, ¬ m.Defines parts name)
    (hkept : ∀ m ∈ n.keptParts, m.DropsNothing) : DropsNothing n

variable {n : Node H} {name : String}

lemma defines_iff {parts : Node H → List (Node H)} :
    n.Defines parts name ↔ name ∈ n.definedNames ∨ ∃ m ∈ parts n, m.Defines parts name := by
  constructor
  · rintro (h | ⟨hm, h⟩)
    · exact .inl h
    · exact .inr ⟨_, hm, h⟩
  · rintro (h | ⟨m, hm, h⟩)
    · exact .here h
    · exact .part hm h

lemma definedNames_subset_boundNames : n.definedNames ⊆ n.boundNames := by
  obtain ⟨kind, span, type⟩ := n
  cases kind with
  | list items =>
    cases hform : SpecialForm.of? items .empty with
    | none => simp [definedNames, hform]
    | some form => cases form <;> simp [definedNames, boundNames, hform]
  | quoted | atom | str | null | keyword | value | procedure => exact List.nil_subset _

lemma Ordinary.of_mem_keptParts (h : n.Ordinary) : ∀ m ∈ n.keptParts, m.Ordinary := by
  obtain ⟨-, -, hparts⟩ := h
  exact fun m hm => hparts m (List.mem_append_left _ hm)

lemma Ordinary.not_isReserved (h : n.Ordinary) (hdefines : n.Defines keptParts name) :
    ¬ IsReserved name := by
  induction hdefines with
  | here hname =>
    obtain ⟨-, hnames, -⟩ := h
    exact hnames name (definedNames_subset_boundNames hname)
  | part hm hdefines ih => exact ih (h.of_mem_keptParts _ hm)

/-- Where nothing is dropped, whatever is defined at all is defined in parts that are kept. -/
lemma DropsNothing.defines_keptParts (h : n.DropsNothing) (hdefines : n.Defines parts name) :
    n.Defines keptParts name := by
  induction hdefines with
  | here hname => exact .here hname
  | part hm hdefines ih =>
    obtain ⟨hdropped, hkept⟩ := h
    rcases List.mem_append.1 hm with hm | hm
    · exact .part hm (ih (hkept _ hm))
    · exact absurd hdefines (hdropped _ hm name)

variable {kind : Kind H} {span : Option Span} {type : Option (Node H)}

lemma ordinary_mk_iff : Ordinary ⟨kind, span, type⟩ ↔
    (∀ items, kind = .list items → Macro.of? items .empty = none) ∧
      (∀ name ∈ boundNames ⟨kind, span, type⟩, ¬ IsReserved name) ∧
      ∀ m ∈ parts ⟨kind, span, type⟩, m.Ordinary :=
  ⟨fun ⟨hcall, hnames, hparts⟩ => ⟨hcall, hnames, hparts⟩,
    fun ⟨hcall, hnames, hparts⟩ => ⟨hcall, hnames, hparts⟩⟩

lemma dropsNothing_mk_iff : DropsNothing ⟨kind, span, type⟩ ↔
    (∀ m ∈ droppedParts ⟨kind, span, type⟩, ∀ name, ¬ m.Defines parts name) ∧
      ∀ m ∈ keptParts ⟨kind, span, type⟩, m.DropsNothing :=
  ⟨fun ⟨hdropped, hkept⟩ => ⟨hdropped, hkept⟩, fun ⟨hdropped, hkept⟩ => ⟨hdropped, hkept⟩⟩

lemma defines_mk_iff {parts : Node H → List (Node H)} :
    Defines parts name ⟨kind, span, type⟩ ↔
      name ∈ definedNames ⟨kind, span, type⟩ ∨
        ∃ m ∈ parts ⟨kind, span, type⟩, m.Defines parts name :=
  defines_iff

end Node

/-! ### Scopes without reserved names -/

/-- No reserved name is bound. -/
def Scope.LeavesForms (scope : Scope H) : Prop :=
  scope.Forall fun name _ => ¬ IsReserved name

section

variable {scope : Scope H} (hscope : scope.LeavesForms)
include hscope

lemma Scope.LeavesForms.contains_eq_false {name : String} (hname : IsReserved name) :
    scope.contains name = false := by
  rw [Bindings.contains]
  cases hget : scope.get? name with
  | none => rfl
  | some value => exact absurd hname (hscope name value hget)

/-- Special forms are what they are where no name is bound. -/
lemma SpecialForm.of?_eq_of?_empty (items : List (Node H)) :
    SpecialForm.of? items scope = SpecialForm.of? items .empty := by
  unfold SpecialForm.of?
  split
  · split
    · next name _ =>
      by_cases hname : IsReserved name
      · rw [hscope.contains_eq_false hname]
        rfl
      · have hform : SpecialForm.ofName? name = none := by
          simp only [IsReserved, List.mem_cons, not_or] at hname
          simp [SpecialForm.ofName?, hname]
        simp [hform]
    · rfl
  · rfl

/-- So are calls of macros. -/
lemma Macro.of?_eq_of?_empty (items : List (Node H)) :
    Macro.of? items scope = Macro.of? items .empty := by
  have hcall : scope.contains "macro" = (.empty : Scope H).contains "macro" :=
    hscope.contains_eq_false (by simp [IsReserved])
  unfold Macro.of?
  rw [hcall]

end

/-! ### Expansion -/

/-- The constants bind the names that some nodes define in parts that are kept. -/
def Scope.Collects (consts : Scope H) (ns : List (Node H)) : Prop :=
  ∀ name, consts.contains name ↔ ∃ n ∈ ns, n.Defines Node.keptParts name

namespace Scope

lemma collects_nil : Collects (.empty : Scope H) [] := by
  intro name
  simp [Bindings.contains_empty]

lemma collects_singleton_iff {consts : Scope H} {n : Node H} :
    consts.Collects [n] ↔ ∀ name, consts.contains name ↔ n.Defines Node.keptParts name := by
  simp [Collects]

/-- A node other than a `def` form defines what the parts define that are kept. -/
lemma Collects.of_keptParts {consts : Scope H} {n : Node H} (h : consts.Collects n.keptParts)
    (hn : n.definedNames = []) : consts.Collects [n] := by
  refine collects_singleton_iff.2 fun name => ?_
  simp [h name, Node.defines_iff (n := n), hn]

lemma Collects.merge {a b : Scope H} {ns ms : List (Node H)} (ha : a.Collects ns)
    (hb : b.Collects ms) : Collects (a.merge b) (ns ++ ms) := by
  intro name
  rw [Bindings.contains_merge, ha name, hb name]
  simp [or_and_right, exists_or]

/-- What an ordinary node defines are names that are not reserved. -/
lemma Collects.leavesForms {consts : Scope H} {n : Node H} (h : consts.Collects [n])
    (hn : n.Ordinary) : consts.LeavesForms := by
  intro name value hname
  have hdefines := (collects_singleton_iff.1 h name).1 (Bindings.contains_of_get?_eq_some hname)
  exact hn.not_isReserved hdefines

end Scope

section

variable {evaluate : Scope H → Node H → Outcome (Node H)}

/-- The pairs of a `def` form bind its names, whatever the values define. -/
lemma contains_of_expandDefParts {scope bound : Scope H} {parts : List (Node H)} {consts : Scope H}
    (h : expandDefParts evaluate scope bound parts = .ok consts) (name : String) :
    consts.contains name ↔ bound.contains name ∨ name ∈ pairNames parts := by
  induction parts using pairNames.induct generalizing bound with
  | case1 target value parts ih =>
    rw [expandDefParts] at h
    split at h
    · cases h
    · next key hkey =>
      obtain ⟨e, -, h⟩ := Except.exists_of_bind_eq_ok h
      split at h
      · cases h
      · next node hnode =>
        simp [ih h, Bindings.contains_insert, hkey, or_assoc, or_left_comm]
  | case2 parts hparts =>
    have hbound : consts = bound := by
      rcases parts with _ | ⟨target, _ | ⟨value, parts⟩⟩
      · exact (Except.ok.inj h).symm
      · exact (Except.ok.inj h).symm
      · exact absurd rfl (hparts target value parts)
    simp [hbound]

lemma contains_of_expandDef {scope : Scope H} {span : Option Span} {items : List (Node H)}
    {e : Expanded H} (h : expandDef evaluate scope span items = .ok e) (name : String) :
    e.consts.contains name ↔ name ∈ pairNames items.tail := by
  cases items with
  | nil => cases h
  | cons head parts =>
    rw [expandDef] at h
    split at h
    · cases h
    · obtain ⟨consts, hconsts, h⟩ := Except.exists_of_bind_eq_ok h
      obtain rfl := Except.ok.inj h
      simpa [Bindings.contains_empty] using contains_of_expandDefParts hconsts name

mutual

/-- Expansion binds what a node defines in parts that are kept. -/
theorem expandNode_collects :
    ∀ (scope : Scope H) (n : Node H), scope.LeavesForms → n.Ordinary →
      ∀ {e}, expandNode evaluate scope n = .ok e → e.consts.Collects [n]
  | scope, ⟨.atom name, span, type⟩, hscope, hn, e, h => by
    have hconsts : e.consts = .empty := by
      rw [expandNode] at h
      split at h <;> obtain rfl := Except.ok.inj h
      · rfl
      · rfl
    rw [hconsts]
    exact .of_keptParts Scope.collects_nil rfl
  | scope, ⟨.quoted inner, span, type⟩, hscope, hn, e, h => by
    rw [expandNode] at h
    obtain ⟨x, hx, h⟩ := Except.exists_of_bind_eq_ok h
    obtain rfl := Except.ok.inj h
    have hinner : inner.Ordinary := hn.of_mem_keptParts inner List.mem_cons_self
    have hcollects := expandNode_collects scope inner hscope hinner hx
    exact .of_keptParts hcollects rfl
  | scope, ⟨.list items, span, type⟩, hscope, hn, e, h => by
    rw [expandNode, SpecialForm.of?_eq_of?_empty hscope, Macro.of?_eq_of?_empty hscope] at h
    have hkept := hn.of_mem_keptParts
    obtain ⟨hcall, hnames, -⟩ := hn
    cases hform : SpecialForm.of? items .empty with
    | some form =>
      rw [hform] at h
      cases form with
      | letForm =>
        refine .of_keptParts ?_ (by simp [Node.definedNames, hform])
        simp only [Node.keptParts, Node.boundNames, hform] at hkept hnames ⊢
        exact expandLet_collects scope span items hscope hnames hkept h
      | defForm =>
        refine Scope.collects_singleton_iff.2 fun name => ?_
        rw [contains_of_expandDef h, Node.defines_iff]
        simp [Node.definedNames, Node.keptParts, hform]
      | lambdaForm =>
        refine .of_keptParts ?_ (by simp [Node.definedNames, hform])
        simp only [Node.keptParts, hform] at hkept ⊢
        exact expandLambda_collects scope span _ items hscope hkept h
    | none =>
      rw [hform, hcall items rfl] at h
      obtain ⟨⟨nodes, consts⟩, hitems, h⟩ := Except.exists_of_bind_eq_ok h
      obtain rfl := Except.ok.inj h
      refine .of_keptParts ?_ (by simp [Node.definedNames, hform])
      simp only [Node.keptParts, hform] at hkept ⊢
      exact expandItems_collects scope items hscope hkept hitems
  | scope, ⟨.str _, span, type⟩, _, _, e, h | scope, ⟨.null, span, type⟩, _, _, e, h
  | scope, ⟨.keyword _, span, type⟩, _, _, e, h | scope, ⟨.value _, span, type⟩, _, _, e, h
  | scope, ⟨.procedure _, span, type⟩, _, _, e, h => by
    rw [expandNode] at h
    obtain rfl := Except.ok.inj h
    · exact .of_keptParts Scope.collects_nil rfl
    all_goals simp

theorem expandItems_collects :
    ∀ (scope : Scope H) (ns : List (Node H)), scope.LeavesForms → (∀ n ∈ ns, n.Ordinary) →
      ∀ {x}, expandItems evaluate scope ns = .ok x → x.2.Collects ns
  | scope, [], hscope, hns, x, h => by
    obtain rfl := Except.ok.inj h
    exact Scope.collects_nil
  | scope, n :: ns, hscope, hns, x, h => by
    rw [expandItems] at h
    obtain ⟨e, he, h⟩ := Except.exists_of_bind_eq_ok h
    obtain ⟨⟨nodes, consts⟩, hrest, h⟩ := Except.exists_of_bind_eq_ok h
    obtain rfl := Except.ok.inj h
    obtain ⟨hn, hns⟩ := List.forall_mem_cons.1 hns
    exact (expandNode_collects scope n hscope hn he).merge
      (expandItems_collects scope ns hscope hns hrest)

theorem expandLet_collects :
    ∀ (scope : Scope H) (span : Option Span) (items : List (Node H)), scope.LeavesForms →
      (∀ name ∈ pairNames items.tail, ¬ IsReserved name) →
      (∀ n ∈ afterPairs items.tail, n.Ordinary) →
      ∀ {e}, expandLet evaluate scope span items = .ok e → e.consts.Collects (afterPairs items.tail)
  | scope, span, [], hscope, hnames, hbody, e, h => by cases h
  | scope, span, _ :: parts, hscope, hnames, hbody, e, h => by
    rw [expandLet] at h
    split at h
    · cases h
    · exact expandLetParts_collects scope .empty parts hscope Bindings.forall_empty hnames hbody h

theorem expandLetParts_collects :
    ∀ (scope bound : Scope H) (parts : List (Node H)), scope.LeavesForms → bound.LeavesForms →
      (∀ name ∈ pairNames parts, ¬ IsReserved name) → (∀ n ∈ afterPairs parts, n.Ordinary) →
      ∀ {e}, expandLetParts evaluate scope bound parts = .ok e →
        e.consts.Collects (afterPairs parts)
  | scope, bound, [], hscope, hbound, hnames, hbody, e, h => by
    obtain rfl := Except.ok.inj h
    exact Scope.collects_nil
  | scope, bound, [body], hscope, hbound, hnames, hbody, e, h =>
    expandNode_collects _ body (hscope.merge hbound) (hbody body List.mem_cons_self) h
  | scope, bound, target :: value :: parts, hscope, hbound, hnames, hbody, e, h => by
    rw [expandLetParts] at h
    split at h
    · cases h
    · next name hname =>
      obtain ⟨x, -, h⟩ := Except.exists_of_bind_eq_ok h
      split at h
      · cases h
      · next node hnode =>
        have hbound' : Scope.LeavesForms (bound.insert name node) :=
          hbound.insert (hnames name (by simp [hname]))
        exact expandLetParts_collects scope _ parts hscope hbound'
          (fun key hkey => hnames key (by simp [hkey])) hbody h

theorem expandLambda_collects :
    ∀ (scope : Scope H) (span : Option Span) (type : Node H) (items : List (Node H)),
      scope.LeavesForms → (∀ n ∈ items.drop 2, n.Ordinary) →
      ∀ {e}, expandLambda evaluate scope span type items = .ok e → e.consts.Collects (items.drop 2)
  | scope, span, type, items, hscope, hbody, e, h =>
    match items, LambdaShape.of items, hbody, h with
    | [head, ⟨.list params, paramsSpan, paramsType⟩, body], _, hbody, h => by
      rw [expandLambda] at h
      split at h
      · cases h
      · obtain ⟨x, hx, h⟩ := Except.exists_of_bind_eq_ok h
        split at h
        · cases h
        · obtain ⟨chain, -, h⟩ := Except.exists_of_bind_eq_ok h
          obtain rfl := Except.ok.inj h
          have hcollects := expandNode_collects scope body hscope (hbody body List.mem_cons_self) hx
          exact hcollects
    | [head, params, body], .noList _ _ hparams, _, h => by
      rw [expandLambda_of_noList _ hparams] at h
      cases h
    | items, .notThree hlength, _, h => by
      rw [expandLambda_of_notThree _ hlength] at h
      cases h

end

/-! ### Programs -/

/-- The constants of a program are those it starts from and those that its forms define in parts
that are kept. -/
theorem expandForms_contains {consts : Scope H} {forms : List (Node H)} {program : Expansion H}
    (hconsts : consts.LeavesForms) (hforms : ∀ form ∈ forms, form.Ordinary)
    (h : expandForms evaluate consts forms = .ok program) (name : String) :
    program.consts.contains name ↔
      consts.contains name ∨ ∃ form ∈ forms, form.Defines Node.keptParts name := by
  induction forms generalizing consts program with
  | nil =>
    obtain rfl := Except.ok.inj h
    simp
  | cons form forms ih =>
    rw [expandForms] at h
    obtain ⟨e, he, h⟩ := Except.exists_of_bind_eq_ok h
    obtain ⟨rest, hrest, h⟩ := Except.exists_of_bind_eq_ok h
    obtain rfl := Except.ok.inj h
    obtain ⟨hform, hforms⟩ := List.forall_mem_cons.1 hforms
    have hcollects := expandNode_collects consts form hconsts hform he
    have hmerge : Scope.LeavesForms (consts.merge e.consts) :=
      hconsts.merge (hcollects.leavesForms hform)
    rw [ih hmerge hforms hrest, Bindings.contains_merge,
      Scope.collects_singleton_iff.1 hcollects name]
    simp [or_assoc]

end

/-- **Definitions that are kept.**  Where a program has no macros and binds no reserved names, the
names that are bound after its expansion are those that are defined in parts that are kept.  So if
nothing is defined in a value of a `let` or `def` form or in a parameter, then every definition of
the program is kept. -/
theorem contains_consts_of_expandProgram [Host H] {depth : Nat} {forms : List (Node H)}
    {program : Expansion H} (hforms : ∀ form ∈ forms, form.Ordinary)
    (h : expandProgram depth .empty forms = .ok program) :
    (∀ name, program.consts.contains name ↔ ∃ form ∈ forms, form.Defines Node.keptParts name) ∧
      ((∀ form ∈ forms, form.DropsNothing) → ∀ form ∈ forms, ∀ name,
        form.Defines Node.parts name → program.consts.contains name) := by
  have hcontains : ∀ name, program.consts.contains name ↔
      ∃ form ∈ forms, form.Defines Node.keptParts name := by
    intro name
    simpa [Bindings.contains_empty] using expandForms_contains Bindings.forall_empty hforms h name
  refine ⟨hcontains, fun hdrops form hform name hdefines => ?_⟩
  exact (hcontains name).2 ⟨form, hform, (hdrops form hform).defines_keptParts hdefines⟩

/-- Definitions under a quotation and in the body of a `let` form in the body of a function. -/
theorem contains_consts_of_nested_definitions :
    ∃ (forms : List (Node Empty)) (program : Expansion Empty),
      read "(f '(g (def b 2))) (lambda (x) (let y 2 (f (def a 1) x y)))" = .ok forms ∧
      expandProgram 0 .empty forms = .ok program ∧
      program.consts.contains "a" ∧ program.consts.contains "b" := by
  obtain ⟨quoting, function, program, hread, h, hordinary, hdrops, ha, hb⟩ :
      ∃ (quoting function : Node Empty) (program : Expansion Empty),
        read "(f '(g (def b 2))) (lambda (x) (let y 2 (f (def a 1) x y)))" =
          .ok [quoting, function] ∧
        expandProgram 0 .empty [quoting, function] = .ok program ∧
        (∀ form ∈ [quoting, function], form.Ordinary) ∧
        (∀ form ∈ [quoting, function], form.DropsNothing) ∧
        function.Defines Node.parts "a" ∧ quoting.Defines Node.parts "b" := by
    refine ⟨_, _, _, by cbv, by cbv, ?_, ?_, ?_, ?_⟩
    · simp [Node.ordinary_mk_iff, Node.parts, Node.keptParts, Node.droppedParts, Node.boundNames,
        SpecialForm.of?, SpecialForm.ofName?, Macro.of?, Node.atom?, Bindings.contains, IsReserved,
        Node.list?]
    · simp [Node.dropsNothing_mk_iff, Node.defines_mk_iff, Node.definedNames, Node.parts,
        Node.keptParts, Node.droppedParts, SpecialForm.of?, SpecialForm.ofName?, Node.atom?,
        Bindings.contains, Node.list?]
    · simp [Node.defines_mk_iff, Node.definedNames, Node.parts, Node.keptParts, Node.droppedParts,
        SpecialForm.of?, SpecialForm.ofName?, Node.atom?, Bindings.contains, Node.list?]
    · simp [Node.defines_mk_iff, Node.definedNames, Node.parts, Node.keptParts, Node.droppedParts,
        SpecialForm.of?, SpecialForm.ofName?, Node.atom?, Bindings.contains]
  have hkept := (contains_consts_of_expandProgram hordinary h).2 hdrops
  exact ⟨_, program, hread, h, hkept function (by simp) "a" ha, hkept quoting (by simp) "b" hb⟩

/-- A source of one form without macros in which a name is defined, but not bound after its
expansion. -/
def Loses (source name : String) : Prop :=
  ∃ (form : Node Empty) (program : Expansion Empty), read source = .ok [form] ∧ form.Ordinary ∧
    expandSource 0 source = .ok program ∧ form.Defines Node.parts name ∧
    program.consts.contains name = false

/-- What is defined in a value of a `let` or `def` form, or in a parameter, is lost. -/
theorem loses_definitions :
    Loses "(let x (f (def a 1)) x)" "a" ∧ Loses "(def x (f (def a 1)))" "a" ∧
      Loses "(lambda ((f (def a 1))) x)" "a" := by
  refine ⟨⟨_, _, by cbv, ?_, by cbv, ?_, by cbv⟩, ⟨_, _, by cbv, ?_, by cbv, ?_, by cbv⟩,
    ⟨_, _, by cbv, ?_, by cbv, ?_, by cbv⟩⟩
  all_goals
    simp [Node.ordinary_mk_iff, Node.defines_mk_iff, Node.definedNames, Node.boundNames, Node.parts,
      Node.keptParts, Node.droppedParts, SpecialForm.of?, SpecialForm.ofName?, Macro.of?,
      Node.atom?, Bindings.contains, IsReserved, Node.list?]

end TypedLisp
