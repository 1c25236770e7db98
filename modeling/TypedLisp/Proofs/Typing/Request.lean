import TypedLisp.Proofs.Typing.Sketching
import TypedLisp.Proofs.Typing.Tangle

/-!
# Requests

Inference unifies types in six places: a parameter with its place in the arrow of the function,
an argument with its place in the arrow of the callee, an unknown with the arrow that it is taken
to be, the body of a function and a call with what a walk has left over, and a name with its
parameter.  `Requests r scope n s` says that the run of inference on the node `n` in the store `s`
comes to make the request `r`, granted or not.  In a run that succeeds all requests have been
granted, by stores that the last one has grown from.
-/

namespace TypedLisp
namespace Typing

variable {H α β : Type}

/-- Two types that are to be made equal in a store. -/
structure Request where
  store : Store
  left : Var
  right : Var

namespace Request

/-- The run of unification that a request asks for tangles. -/
def Tangles (r : Request) : Prop := r.store.Tangles [(r.left, r.right)]

/-- A request has led to a store from which the store `s` has grown. -/
structure Granted (r : Request) (s : Store) : Prop where
  closed : r.store.Closed
  left_lt : r.left < r.store.size
  right_lt : r.right < r.store.size
  unify : ∃ s', r.store.unify r.left r.right = .ok s' ∧ s'.Grows s

variable {r : Request} {s s' : Store} {θ : Var → Tree}

lemma Granted.grows (h : r.Granted s) (hg : s.Grows s') : r.Granted s' := by
  obtain ⟨s₁, hu, hg₁⟩ := h.unify
  exact ⟨h.closed, h.left_lt, h.right_lt, s₁, hu, hg₁.trans hg⟩

lemma granted_of_unify_eq_ok {v w : Var} (hs : s.Closed) (hv : v < s.size) (hw : w < s.size)
    (h : s.unify v w = .ok s') : Granted ⟨s, v, w⟩ s' :=
  ⟨hs, hv, hw, s', h, .refl (Store.grows_unify hs hv hw h).closed⟩

/-- A request that has led to a store with a model in trees has not tangled. -/
lemma Granted.not_tangles (h : r.Granted s) (hm : s.Models (.trees .any) θ) : ¬ r.Tangles := by
  obtain ⟨s', hu, hg⟩ := h.unify
  have hm' := hg.models (Interpretation.splits_trees SpanRel.splits_any) hm
  exact Store.not_tangles_of_models h.closed (by simp [h.left_lt, h.right_lt]) hu hm'

end Request

/-! ### What is requested -/

/-- A parameter is to have the type of its place in the arrow of the function. -/
def ParamRequests (param : Node H) (slot : Var) (s : Store) (r : Request) : Prop :=
  ∃ v s', s.intern param.type = .ok (v, s') ∧ r = ⟨s', v, slot⟩

/-- An argument is to have the type of its place in the arrow of the callee. -/
def ArgRequests (arg slot : Var) (s : Store) (r : Request) : Prop :=
  r = ⟨s, slot, arg⟩

/-- A walk along arguments comes to make a request: one that `each` makes for an argument, or that
an unknown be an arrow of the arguments that are left. -/
inductive WalkRequests (each : α → Var → Store → Outcome (β × Store))
    (requests : α → Var → Store → Request → Prop) (r : Request) :
    List α → List Var → Var → Store → Prop where
  | here {arg : α} {args : List α} {slot : Var} {slots : List Var} {result : Var} {s : Store}
    (h : requests arg slot s r) :
    WalkRequests each requests r (arg :: args) (slot :: slots) result s
  | there {arg : α} {args : List α} {slot : Var} {slots : List Var} {result : Var} {s s' : Store}
    {b : β} (hb : each arg slot s = .ok (b, s'))
    (h : WalkRequests each requests r args slots result s') :
    WalkRequests each requests r (arg :: args) (slot :: slots) result s
  | unknown {arg : α} {args : List α} {result fresh : Var} {s s' : Store}
    (hc : s.cell result = .unknown) (hf : s.pushUnknownArrow (args.length + 1) = (fresh, s'))
    (hr : r = ⟨s', s'.root result, fresh⟩) : WalkRequests each requests r (arg :: args) [] result s
  | next {arg : α} {args : List α} {result : Var} {s s' : Store} {a : Arrow}
    (ha : s.expectArrow result (args.length + 1) = .ok (some a, s'))
    (h : WalkRequests each requests r (arg :: args) (a.first :: a.rest) a.result s') :
    WalkRequests each requests r (arg :: args) [] result s

/-- The run of inference on a node, in a store, comes to make a request. -/
inductive Requests (r : Request) : Params → Node H → Store → Prop where
  | param {scope : Params} {head params body : Node H} {span : Option Span}
    {type : Option (Node H)} {names : List (Node H)} {own : Var} {s s' : Store}
    (hhead : head.isAtom "lambda") (hnames : paramNames params = .ok names)
    (hown : s.intern (type.getD .null) = .ok (own, s'))
    (h : WalkRequests sketchParam ParamRequests r names [] own s') :
    Requests r scope ⟨.list [head, params, body], span, type⟩ s
  | body {scope : Params} {head params body : Node H} {span : Option Span}
    {type : Option (Node H)} {names : List (Node H)} {f : Lambda} {s s' : Store}
    (hhead : head.isAtom "lambda") (hnames : paramNames params = .ok names)
    (hf : openLambda span (type.getD .null) names s = .ok (f, s'))
    (h : Requests r (f.scope names scope) body s') :
    Requests r scope ⟨.list [head, params, body], span, type⟩ s
  | result {scope : Params} {head params body : Node H} {span : Option Span}
    {type : Option (Node H)} {names : List (Node H)} {f : Lambda} {b : Sketch H} {s s' s'' : Store}
    (hhead : head.isAtom "lambda") (hnames : paramNames params = .ok names)
    (hf : openLambda span (type.getD .null) names s = .ok (f, s'))
    (hb : sketch (f.scope names scope) body s' = .ok (b, s''))
    (hr : r = ⟨s'', b.var, f.result⟩) :
    Requests r scope ⟨.list [head, params, body], span, type⟩ s
  | item {scope : Params} {before after : List (Node H)} {n : Node H} {span : Option Span}
    {type : Option (Node H)} {ts : List (Sketch H)} {s s' : Store}
    (hitems : ¬ IsFunction (before ++ n :: after))
    (hts : sketchAll scope before s = .ok (ts, s')) (h : Requests r scope n s') :
    Requests r scope ⟨.list (before ++ n :: after), span, type⟩ s
  | arg {scope : Params} {items : List (Node H)} {span : Option Span} {type : Option (Node H)}
    {callee arg : Sketch H} {args : List (Sketch H)} {own : Var} {s s' s'' : Store}
    (hitems : ¬ IsFunction items)
    (hts : sketchAll scope items s = .ok (callee :: arg :: args, s'))
    (hown : s'.intern (type.getD .null) = .ok (own, s''))
    (h : WalkRequests sketchArg ArgRequests r ((arg :: args).map Sketch.var) [] callee.var s'') :
    Requests r scope ⟨.list items, span, type⟩ s
  | call {scope : Params} {items : List (Node H)} {span : Option Span} {type : Option (Node H)}
    {callee arg : Sketch H} {args : List (Sketch H)} {own result : Var} {us : List Unit}
    {s s₁ s₂ s₃ : Store} (hitems : ¬ IsFunction items)
    (hts : sketchAll scope items s = .ok (callee :: arg :: args, s₁))
    (hown : s₁.intern (type.getD .null) = .ok (own, s₂))
    (hwalk : walkFrom sketchArg (calleeError (items.head?.bind Node.span)) callee.var
      ((arg :: args).map Sketch.var) s₂ = .ok ((us, result), s₃))
    (hr : r = ⟨s₃, result, own⟩) : Requests r scope ⟨.list items, span, type⟩ s
  | name {scope : Params} {name : String} {span : Option Span} {type : Option (Node H)}
    {param v : Var} {s s' : Store} (hparam : scope.lookup name = some param)
    (hv : s.intern (type.getD .null) = .ok (v, s')) (hr : r = ⟨s', param, v⟩) :
    Requests r scope ⟨.atom name, span, type⟩ s

/-- The run of inference on a node comes to make a request that tangles. -/
def Tangled (n : Node H) : Prop := ∃ r, Requests r [] n .empty ∧ r.Tangles

/-! ### What is granted -/

section Walk

variable {each : α → Var → Store → Outcome (β × Store)} {ready : Store → α → Prop}
  {var : α → β → Var} {asks : ∀ {D : Type}, Interpretation D → (Var → D) → α → D → Prop}
  {requests : α → Var → Store → Request → Prop} {notArrow : Node Empty → Error} {arg : α}
  {args : List α} {slot : Var} {slots : List Var} {result v : Var} {s s' : Store} {b : β}
  {bs : List β} {r : Request}

lemma unify_of_expectArrow_eq_ok {fresh : Var} {n : Nat} {a? : Option Arrow}
    (hc : s.cell result = .unknown) (hf : s.pushUnknownArrow n = (fresh, s'))
    {s₁ : Store} (h : s.expectArrow result n = .ok (a?, s₁)) :
    s'.unify (s'.root result) fresh = .ok s₁ := by
  simp only [Store.expectArrow, hc, hf] at h
  obtain ⟨s₂, hu, h⟩ := Except.exists_of_bind_eq_ok h
  obtain ⟨-, rfl⟩ := Prod.mk.inj (Except.ok.inj h)
  exact hu

lemma pushUnknownArrow_lt {fresh : Var} {n : Nat} (hs : s.Closed)
    (hf : s.pushUnknownArrow n = (fresh, s')) : s.Grows s' ∧ fresh < s'.size := by
  obtain ⟨hgu, hlt⟩ := Store.grows_pushUnknowns hs (n + 1)
  obtain ⟨hga, hfresh⟩ := Store.grows_pushArrow hgu.closed hlt
  obtain ⟨rfl, rfl⟩ := Prod.mk.inj hf
  exact ⟨hgu.trans hga, hfresh⟩

/-- In a walk that succeeds, all requests have been granted. -/
lemma granted_of_walk (hp : Places each ready var asks)
    (heach : ∀ {arg slot s s' b}, s.Closed → slot < s.size → ready s arg → requests arg slot s r →
      each arg slot s = .ok (b, s') → r.Granted s')
    (hs : s.Closed) (hslots : ∀ i ∈ slots, i < s.size) (hres : result < s.size)
    (hargs : ∀ a ∈ args, ready s a) (hr : WalkRequests each requests r args slots result s)
    (h : walk each notArrow args slots result s = .ok ((bs, v), s')) : r.Granted s' := by
  induction hr generalizing bs with
  | @here arg args slot slots result s hr =>
    obtain ⟨b, bs', s₁, -, hb, hrest⟩ := of_walk_cons_eq_ok h
    obtain ⟨hslot, hslots⟩ := List.forall_mem_cons.1 hslots
    obtain ⟨harg, hargs⟩ := List.forall_mem_cons.1 hargs
    obtain ⟨hg, -⟩ := hp.sound hs hslot harg hb
    have hargs₁ : ∀ a ∈ args, ready s₁ a := fun a ha => hp.mono hg.size_le (hargs a ha)
    obtain ⟨-, hw⟩ :=
      of_walk_eq_ok hp hg.closed (hg.forall_lt hslots) (hg.lt hres) hargs₁ hrest
    exact (heach hs hslot harg hr hb).grows hw.grows
  | @there arg args slot slots result s s₁ b hb _ ih =>
    obtain ⟨b', bs', s₁', -, hb', hrest⟩ := of_walk_cons_eq_ok h
    obtain ⟨-, rfl⟩ := Except.eq_of_eq_ok hb hb'
    obtain ⟨hslot, hslots⟩ := List.forall_mem_cons.1 hslots
    obtain ⟨harg, hargs⟩ := List.forall_mem_cons.1 hargs
    obtain ⟨hg, -⟩ := hp.sound hs hslot harg hb
    have hargs₁ : ∀ a ∈ args, ready s₁ a := fun a ha => hp.mono hg.size_le (hargs a ha)
    exact ih hg.closed (hg.forall_lt hslots) (hg.lt hres) hargs₁ hrest
  | @unknown arg args result fresh s s₁ hc hf hr =>
    obtain ⟨a, s₂, ha, hrest⟩ := of_walk_nil_eq_ok h
    obtain ⟨hg, hfresh⟩ := pushUnknownArrow_lt hs hf
    have hroot := (hg.closed.root_lt_iff (v := result)).2 (hg.lt hres)
    have hu := unify_of_expectArrow_eq_ok hc hf ha
    obtain ⟨hg₂, hslots, hres₂⟩ := Store.lt_of_expectArrow_eq_ok hs hres ha
    obtain ⟨-, hw⟩ := of_walk_eq_ok hp hg₂.closed hslots hres₂
      (fun a ha => hp.mono hg₂.size_le (hargs a ha)) hrest
    rw [hr]
    exact (Request.granted_of_unify_eq_ok hg.closed hroot hfresh hu).grows hw.grows
  | @next arg args result s s₁ a ha _ ih =>
    obtain ⟨a', s₁', ha', hrest⟩ := of_walk_nil_eq_ok h
    obtain ⟨heq, rfl⟩ := Except.eq_of_eq_ok ha ha'
    obtain rfl := Option.some.inj heq
    obtain ⟨hg, hslots, hres₁⟩ := Store.lt_of_expectArrow_eq_ok hs hres ha
    exact ih hg.closed hslots hres₁ (fun a ha => hp.mono hg.size_le (hargs a ha)) hrest

end Walk

variable {r : Request} {s s' : Store} {scope : Params} {n : Node H} {t : Sketch H}

lemma of_sketchAll_append_eq_ok {before after : List (Node H)} {ts : List (Sketch H)}
    (h : sketchAll scope (before ++ after) s = .ok (ts, s')) :
    ∃ us vs s₁, sketchAll scope before s = .ok (us, s₁) ∧
      sketchAll scope after s₁ = .ok (vs, s') := by
  induction before generalizing s ts with
  | nil => exact ⟨[], ts, s, rfl, h⟩
  | cons n before ih =>
    obtain ⟨⟨t, s₁⟩, ht, h⟩ := Except.exists_of_bind_eq_ok h
    obtain ⟨⟨ts', s₂⟩, hts, h⟩ := Except.exists_of_bind_eq_ok h
    obtain ⟨-, rfl⟩ := Prod.mk.inj (Except.ok.inj h)
    obtain ⟨us, vs, s₃, hus, hvs⟩ := ih hts
    refine ⟨t :: us, vs, s₃, ?_, hvs⟩
    simp only [sketchAll, ht, hus, bind, Except.bind, pure, Except.pure]

/-- The parts of a run on a function. -/
lemma of_sketch_function_eq_ok {head params body : Node H} {span : Option Span}
    {type : Option (Node H)} {names : List (Node H)} (hs : s.Closed)
    (hscope : ∀ p ∈ scope, p.2 < s.size) (hhead : head.isAtom "lambda")
    (hnames : paramNames params = .ok names)
    (h : sketch scope ⟨.list [head, params, body], span, type⟩ s = .ok (t, s')) :
    ∃ f s₁ b s₂, openLambda span (type.getD .null) names s = .ok (f, s₁) ∧
      sketch (f.scope names scope) body s₁ = .ok (b, s₂) ∧
      closeLambda f span head params names b s₂ = .ok (t, s') ∧ s.Grows s₁ ∧ s₁.Grows s₂ ∧
      s₂.Grows s' ∧ (∀ p ∈ f.scope names scope, p.2 < s₁.size) ∧ b.var < s₂.size ∧
      f.result < s₂.size := by
  rw [sketch_function hhead, hnames] at h
  obtain ⟨_, heq, h⟩ := Except.exists_of_bind_eq_ok h
  obtain rfl := Except.ok.inj heq
  obtain ⟨⟨f, s₁⟩, hf, h⟩ := Except.exists_of_bind_eq_ok h
  obtain ⟨⟨b, s₂⟩, hb, h⟩ := Except.exists_of_bind_eq_ok h
  obtain ⟨s₀, -, hg₀, hg₁, -, hres, hparams, -⟩ := of_openLambda_eq_ok hs hf
  have hscope' := Lambda.scope_lt names hparams ((hg₀.trans hg₁).forall_lt hscope)
  obtain ⟨hg₂, hbody⟩ := grounded body hg₁.closed hscope' hb
  obtain ⟨-, -, -, hg₃, -⟩ := of_closeLambda_eq_ok hg₂.closed hbody.own.1 (hg₂.lt hres) h
  exact ⟨f, s₁, b, s₂, hf, hb, h, hg₀.trans hg₁, hg₂, hg₃, hscope', hbody.own.1, hg₂.lt hres⟩

/-- The parts of a run on another list. -/
lemma of_sketch_list_eq_ok {items : List (Node H)} {span : Option Span} {type : Option (Node H)}
    (hs : s.Closed) (hscope : ∀ p ∈ scope, p.2 < s.size) (hitems : ¬ IsFunction items)
    (h : sketch scope ⟨.list items, span, type⟩ s = .ok (t, s')) :
    ∃ ts s₁, sketchAll scope items s = .ok (ts, s₁) ∧
      sketchForm (items.head?.bind Node.span) span (type.getD .null) ts s₁ = .ok (t, s') ∧
      s.Grows s₁ ∧ s₁.Grows s' ∧ ∀ t ∈ ts, t.var < s₁.size := by
  rw [sketch_list hitems] at h
  obtain ⟨⟨ts, s₁⟩, hts, h⟩ := Except.exists_of_bind_eq_ok h
  obtain ⟨hg, houts⟩ := Grounded.all (fun n _ => grounded n) hs hscope hts
  have hlt := var_lt_of_outlines houts
  obtain ⟨-, s₂, -, -, hg₁, hg₂, -⟩ := of_sketchForm_eq_ok hg.closed hlt h
  exact ⟨ts, s₁, hts, h, hg, hg₁.trans hg₂, hlt⟩

/-- The parts of a run on a call. -/
lemma of_sketchCall_eq_ok_of_intern {calleeSpan span : Option Span} {type : Node H}
    {callee : Sketch H} {args : List (Sketch H)} {own : Var} {s₁ : Store} (hs : s.Closed)
    (hcallee : callee.var < s.size) (hargs : ∀ arg ∈ args, arg.var < s.size)
    (hown : s.intern type = .ok (own, s₁))
    (h : sketchCall calleeSpan span type callee args s = .ok (t, s')) :
    ∃ us v s₂, walkFrom sketchArg (calleeError calleeSpan) callee.var (args.map Sketch.var) s₁ =
        .ok ((us, v), s₂) ∧
      s₂.unify v own = .ok s' ∧ s₁.Closed ∧ s₁.Grows s₂ ∧ callee.var < s₁.size ∧
      (∀ a ∈ args.map Sketch.var, a < s₁.size) ∧ v < s₂.size ∧ own < s₂.size := by
  obtain ⟨⟨own', s₁'⟩, hown', h⟩ := Except.exists_of_bind_eq_ok h
  obtain ⟨rfl, rfl⟩ := Except.eq_of_eq_ok hown hown'
  obtain ⟨⟨⟨us, v⟩, s₂⟩, hwalk, h⟩ := Except.exists_of_bind_eq_ok h
  obtain ⟨s₃, hu, h⟩ := Except.exists_of_bind_eq_ok h
  obtain ⟨-, rfl⟩ := Prod.mk.inj (Except.ok.inj h)
  obtain ⟨-, -, hg, hlt, -⟩ := Store.of_intern_eq_ok hs hown
  have hargs' : ∀ a ∈ args.map Sketch.var, a < s₁.size :=
    List.forall_mem_map.2 fun arg harg => hg.lt (hargs arg harg)
  obtain ⟨-, hw⟩ := of_walk_eq_ok places_sketchArg hg.closed (by simp) (hg.lt hcallee) hargs' hwalk
  exact ⟨us, v, s₂, hwalk, hu, hg.closed, hw.grows, hg.lt hcallee, hargs', hw.lt, hw.grows.lt hlt⟩

/-- In a run of inference that succeeds, all requests have been granted. -/
theorem granted (hs : s.Closed) (hscope : ∀ p ∈ scope, p.2 < s.size) (hr : Requests r scope n s)
    (h : sketch scope n s = .ok (t, s')) : r.Granted s' := by
  induction hr generalizing t s' with
  | @param scope head params body span type names own s s₀ hhead hnames hown hr =>
    obtain ⟨f, s₁, b, s₂, hf, -, -, -, hg₂, hg₃, -⟩ :=
      of_sketch_function_eq_ok hs hscope hhead hnames h
    obtain ⟨⟨own', s₀'⟩, hown', hf⟩ := Except.exists_of_bind_eq_ok hf
    obtain ⟨rfl, rfl⟩ := Except.eq_of_eq_ok hown hown'
    obtain ⟨⟨⟨vs, result⟩, s₁⟩, hwalk, hf⟩ := Except.exists_of_bind_eq_ok hf
    obtain ⟨-, rfl⟩ := Prod.mk.inj (Except.ok.inj hf)
    obtain ⟨-, -, hg₀, hlt, -⟩ := Store.of_intern_eq_ok hs hown
    -- granted on the walk along the parameters; the body and the end of the function come after
    refine (granted_of_walk places_sketchParam ?_ hg₀.closed (by simp) hlt (by simp) hr
      hwalk).grows (hg₂.trans hg₃)
    rintro param slot s s' v hs hslot - ⟨w, s₁, hw, rfl⟩ h
    obtain ⟨⟨w', s₁'⟩, hw', h⟩ := Except.exists_of_bind_eq_ok h
    obtain ⟨rfl, rfl⟩ := Except.eq_of_eq_ok hw hw'
    obtain ⟨s₂, hu, h⟩ := Except.exists_of_bind_eq_ok h
    obtain ⟨-, rfl⟩ := Prod.mk.inj (Except.ok.inj h)
    obtain ⟨-, -, hg, hlt, -⟩ := Store.of_intern_eq_ok hs hw
    exact Request.granted_of_unify_eq_ok hg.closed hlt (hg.lt hslot) hu
  | @body scope head params body span type names f s s₁ hhead hnames hf _ ih =>
    obtain ⟨f', s₁', b, s₂, hf', hb, -, hg₁, -, hg₃, hscope', -⟩ :=
      of_sketch_function_eq_ok hs hscope hhead hnames h
    obtain ⟨rfl, rfl⟩ := Except.eq_of_eq_ok hf hf'
    exact (ih hg₁.closed hscope' hb).grows hg₃
  | @result scope head params body span type names f b s s₁ s₂ hhead hnames hf hb hr =>
    obtain ⟨f', s₁', b', s₂', hf', hb', h, -, hg₂, -, -, hlt, hres⟩ :=
      of_sketch_function_eq_ok hs hscope hhead hnames h
    obtain ⟨rfl, rfl⟩ := Except.eq_of_eq_ok hf hf'
    obtain ⟨rfl, rfl⟩ := Except.eq_of_eq_ok hb hb'
    obtain ⟨s₃, hu, h⟩ := Except.exists_of_bind_eq_ok h
    obtain ⟨⟨v, s₄⟩, hv, h⟩ := Except.exists_of_bind_eq_ok h
    obtain ⟨⟨w, s₅⟩, hw, h⟩ := Except.exists_of_bind_eq_ok h
    obtain ⟨-, rfl⟩ := Prod.mk.inj (Except.ok.inj h)
    have hgu := Store.grows_unify hg₂.closed hlt hres hu
    obtain ⟨hgv, -⟩ := declares_of_intern hgu.closed hv
    obtain ⟨hgw, -⟩ := declares_of_intern hgv.closed hw
    rw [hr]
    exact (Request.granted_of_unify_eq_ok hg₂.closed hlt hres hu).grows (hgv.trans hgw)
  | @item scope before after n span type ts s s₁ hitems hts _ ih =>
    obtain ⟨ts', s₂, hts', -, -, hg₂, -⟩ := of_sketch_list_eq_ok hs hscope hitems h
    obtain ⟨us, vs, s₁', hus, hvs⟩ := of_sketchAll_append_eq_ok hts'
    obtain ⟨-, rfl⟩ := Except.eq_of_eq_ok hts hus
    obtain ⟨hg, -⟩ := Grounded.all (fun n _ => grounded n) hs hscope hts
    have hscope' : ∀ p ∈ scope, p.2 < s₁.size := hg.forall_lt hscope
    obtain ⟨⟨t, s₃⟩, ht, hvs⟩ := Except.exists_of_bind_eq_ok hvs
    obtain ⟨⟨ws, s₄⟩, hws, hvs⟩ := Except.exists_of_bind_eq_ok hvs
    obtain ⟨-, rfl⟩ := Prod.mk.inj (Except.ok.inj hvs)
    obtain ⟨hg₃, -⟩ := grounded n hg.closed hscope' ht
    obtain ⟨hg₄, -⟩ := Grounded.all (fun n _ => grounded n) hg₃.closed
      (hg₃.forall_lt hscope') hws
    exact (ih hg.closed hscope' ht).grows (hg₄.trans hg₂)
  | @arg scope items span type callee arg args own s s₁ s₂ hitems hts hown hr =>
    obtain ⟨ts', s₁', hts', h, hg₁, -, hlt⟩ := of_sketch_list_eq_ok hs hscope hitems h
    obtain ⟨rfl, rfl⟩ := Except.eq_of_eq_ok hts hts'
    obtain ⟨hcallee, hargs⟩ := List.forall_mem_cons.1 hlt
    obtain ⟨us, v, s₃, hwalk, hu, hs₂, hg₃, hcallee, hargs, hv, hown'⟩ :=
      of_sketchCall_eq_ok_of_intern hg₁.closed hcallee hargs hown h
    have hgu := Store.grows_unify hg₃.closed hv hown' hu
    refine (granted_of_walk places_sketchArg ?_ hs₂ (by simp) hcallee hargs hr hwalk).grows hgu
    rintro arg slot s s' _ hs hslot harg rfl h
    obtain ⟨s₁, hu, h⟩ := Except.exists_of_bind_eq_ok h
    obtain ⟨-, rfl⟩ := Prod.mk.inj (Except.ok.inj h)
    exact Request.granted_of_unify_eq_ok hs hslot harg hu
  | @call scope items span type callee arg args own result us s s₁ s₂ s₃ hitems hts hown hwalk hr =>
    obtain ⟨ts', s₁', hts', h, hg₁, -, hlt⟩ := of_sketch_list_eq_ok hs hscope hitems h
    obtain ⟨rfl, rfl⟩ := Except.eq_of_eq_ok hts hts'
    obtain ⟨hcallee, hargs⟩ := List.forall_mem_cons.1 hlt
    obtain ⟨us', v, s₃', hwalk', hu, hs₂, hg₃, -, -, hv, hown'⟩ :=
      of_sketchCall_eq_ok_of_intern hg₁.closed hcallee hargs hown h
    obtain ⟨heq, rfl⟩ := Except.eq_of_eq_ok hwalk hwalk'
    obtain ⟨-, rfl⟩ := Prod.mk.inj heq
    rw [hr]
    exact Request.granted_of_unify_eq_ok hg₃.closed hv hown' hu
  | @name scope name span type param v s s₁ hparam hv hr =>
    rw [sketch] at h
    obtain ⟨⟨v', s₁'⟩, hv', h⟩ := Except.exists_of_bind_eq_ok h
    obtain ⟨rfl, rfl⟩ := Except.eq_of_eq_ok hv hv'
    simp only [hparam] at h
    obtain ⟨s₂, hu, h⟩ := Except.exists_of_bind_eq_ok h
    obtain ⟨-, rfl⟩ := Prod.mk.inj (Except.ok.inj h)
    obtain ⟨-, -, hg, hlt, -⟩ := Store.of_intern_eq_ok hs hv
    rw [hr]
    exact Request.granted_of_unify_eq_ok hg.closed (hg.lt (lt_of_lookup hscope hparam)) hlt hu

end Typing
end TypedLisp
