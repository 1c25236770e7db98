import TypedLisp.Proofs.Typing.Principality
import TypedLisp.Proofs.Typing.Request

/-!
# When inference answers

Inference ends with a typed node or a type error, except that it may go on without end on a node on
which it makes a request that tangles.  For as long as no request tangles, all types are finite,
and searching and reading finite types comes to an end.  And a node with an answer is not tangled:
its typing is a model in trees of the last store, and a request that tangles rules that out.
After a request that tangles nothing but a type error can keep inference from going on without end.
-/

namespace TypedLisp
namespace Typing

variable {H α β : Type} {T : Prop}

/-- A run that starts from finite types answers with finite types or a type error, unless `T`. -/
abbrev Answers (x : Outcome (α × Store)) (T : Prop) : Prop :=
  x.Meets T fun p => p.2.Finite ∨ T

/-! ### New types -/

section Growth

variable {s s' : Store} {v : Var}

lemma answers_intern {n : Node H} (hs : s.Closed) (h : s.Finite ∨ T) : Answers (s.intern n) T := by
  cases hn : tree? n with
  | none =>
    obtain ⟨spans, cause, he⟩ := Store.exists_typeError_of_tree? (s := s) hn
    rw [he]
    exact Outcome.meets_typeError spans cause
  | some t =>
    rw [Store.intern_of_tree? hn]
    refine h.imp_left ?_
    intro h
    -- finite types are a model in trees, and new variables can be given finite types
    obtain ⟨θ, hm⟩ := h.exists_models hs
    obtain ⟨θ', -, hm', -⟩ := Store.exists_models_pushTree hs hm (t.fits_self fun _ => trivial)
    exact hm'.exists_reads (Store.grows_pushTree hs t).1.closed

lemma finite_pushArrow {types : List Var} (hs : s.Closed) (ht : ∀ i ∈ types, i < s.size)
    (h : s.Finite) : (s.pushArrow types).2.Finite := by
  obtain ⟨θ, hm⟩ := h.exists_models hs
  obtain ⟨θ', -, hm', -⟩ := Store.exists_models_pushArrow (d := .list (.atom Node.arrowName none ::
    types.map θ) none) hs ht hm ⟨_, ⟨none, trivial, rfl⟩, none, trivial, rfl⟩
  exact hm'.exists_reads (Store.grows_pushArrow hs ht).1.closed

lemma finite_pushUnknownArrow {n : Nat} (hs : s.Closed) (h : s.Finite) :
    (s.pushUnknownArrow n).2.Finite := by
  obtain ⟨hg, hlt⟩ := Store.grows_pushUnknowns hs (n + 1)
  refine finite_pushArrow hg.closed hlt ?_
  obtain ⟨θ, hm⟩ := h.exists_models hs
  obtain ⟨θ', -, hm', -⟩ := Store.exists_models_pushUnknowns hs hm (List.replicate (n + 1) .unknown)
  rw [List.length_replicate] at hm'
  exact hm'.exists_reads hg.closed

lemma answers_expectArrow {n : Nat} (hs : s.Closed) (hv : v < s.size) (h : s.Finite ∨ T)
    (ht : s.cell v = .unknown → ∀ fresh s', s.pushUnknownArrow n = (fresh, s') →
      Request.Tangles ⟨s', s'.root v, fresh⟩ → T) : Answers (s.expectArrow v n) T := by
  unfold Store.expectArrow
  split
  · next hc =>
    obtain ⟨hg, hfresh⟩ := pushUnknownArrow_lt hs (Prod.mk.eta (p := s.pushUnknownArrow n)).symm
    have hroot := (hg.closed.root_lt_iff (v := v)).2 (hg.lt hv)
    have hunify := Store.meets_unify hg.closed hroot hfresh
      (h.imp_left (finite_pushUnknownArrow hs)) (ht hc _ _ rfl)
    exact hunify.bind fun _ _ h => h
  · exact h

end Growth

/-! ### Walks -/

section Walk

variable {each : α → Var → Store → Outcome (β × Store)} {ready : Store → α → Prop}
  {var : α → β → Var} {asks : ∀ {D : Type}, Interpretation D → (Var → D) → α → D → Prop}
  {requests : α → Var → Store → Request → Prop} {notArrow : Node Empty → Error} {args : List α}
  {slots : List Var} {result : Var} {s : Store}

/-- A walk answers if its steps do and no request of it tangles. -/
lemma answers_walk (hp : Places each ready var asks)
    (hnot : ∀ type, ∃ cause spans, notArrow type = .typing cause spans)
    (heach : ∀ {arg slot s}, s.Closed → slot < s.size → ready s arg → s.Finite ∨ T →
      (∀ r, requests arg slot s r → r.Tangles → T) → Answers (each arg slot s) T)
    (hs : s.Closed) (hslots : ∀ i ∈ slots, i < s.size) (hres : result < s.size)
    (hargs : ∀ a ∈ args, ready s a) (h : s.Finite ∨ T)
    (ht : ∀ r, WalkRequests each requests r args slots result s → r.Tangles → T) :
    Answers (walk each notArrow args slots result s) T := by
  induction args generalizing slots result s with
  | nil =>
    cases slots with
    | nil => exact h
    | cons slot slots =>
      refine h.imp_left (finite_pushArrow hs ?_)
      simpa [or_imp, forall_and, hres] using hslots
  | cons arg args ih =>
    -- the step along an arrow at hand, which may have been there before
    have take : ∀ {slot slots result s}, s.Closed → (∀ i ∈ slot :: slots, i < s.size) →
        result < s.size → (∀ a ∈ arg :: args, ready s a) → s.Finite ∨ T →
        (∀ r, WalkRequests each requests r (arg :: args) (slot :: slots) result s →
          r.Tangles → T) →
        Answers (walk each notArrow (arg :: args) (slot :: slots) result s) T := by
      intro slot slots result s hs hslots hres hargs h ht
      obtain ⟨hslot, hslots⟩ := List.forall_mem_cons.1 hslots
      obtain ⟨harg, hargs⟩ := List.forall_mem_cons.1 hargs
      refine (heach hs hslot harg h fun r hr => ht r (.here hr)).bind ?_
      rintro ⟨b, s₁⟩ hb h₁
      obtain ⟨hg, -⟩ := hp.sound hs hslot harg hb
      have hargs₁ : ∀ a ∈ args, ready s₁ a := fun a ha => hp.mono hg.size_le (hargs a ha)
      refine (ih hg.closed (hg.forall_lt hslots) (hg.lt hres) hargs₁ h₁
        fun r hr => ht r (.there hb hr)).bind ?_
      exact fun _ _ h => h
    cases slots with
    | cons slot slots => exact take hs hslots hres hargs h ht
    | nil =>
      have hexpect := answers_expectArrow (n := args.length + 1) hs hres h
        fun hc fresh s' hf => ht _ (.unknown hc hf rfl)
      refine hexpect.bind ?_
      rintro ⟨a?, s₁⟩ ha h₁
      cases a? with
      | none =>
        -- no arrow: the type is read for the message of the error
        refine (Store.meets_read h₁).bind ?_
        intro type _ _
        exact hnot type
      | some a =>
        obtain ⟨hg, hslots, hres₁⟩ := Store.lt_of_expectArrow_eq_ok hs hres ha
        exact take hg.closed hslots hres₁ (fun a ha => hp.mono hg.size_le (hargs a ha)) h₁
          fun r hr => ht r (.next ha hr)

lemma answers_sketchParam {param : Node H} {slot : Var} (hs : s.Closed) (hslot : slot < s.size)
    (h : s.Finite ∨ T) (ht : ∀ r, ParamRequests param slot s r → r.Tangles → T) :
    Answers (sketchParam param slot s) T := by
  refine (answers_intern hs h).bind ?_
  rintro ⟨v, s₁⟩ hv h₁
  obtain ⟨-, -, hg, hlt, -⟩ := Store.of_intern_eq_ok hs hv
  refine (Store.meets_unify hg.closed hlt (hg.lt hslot) h₁ (ht _ ⟨v, s₁, hv, rfl⟩)).bind ?_
  exact fun _ _ h => h

lemma answers_sketchArg {arg slot : Var} (hs : s.Closed) (hslot : slot < s.size)
    (harg : arg < s.size) (h : s.Finite ∨ T) (ht : ∀ r, ArgRequests arg slot s r → r.Tangles → T) :
    Answers (sketchArg arg slot s) T :=
  (Store.meets_unify hs hslot harg h (ht _ rfl)).bind fun _ _ h => h

end Walk

/-! ### Forms -/

section Forms

variable {s s' : Store} {scope : Params} {span : Option Span} {type : Option (Node H)}

lemma meets_paramNames (params : Node H) :
    (Outcome.ofExcept (paramNames params)).Meets T fun _ => True := by
  unfold paramNames
  split
  · exact ⟨_, _, rfl⟩
  · exact ⟨_, _, rfl⟩
  · split
    · exact ⟨_, _, rfl⟩
    · trivial

lemma answers_openLambda {names : List (Node H)} (hs : s.Closed) (h : s.Finite ∨ T)
    (ht : ∀ r own s', s.intern (type.getD .null) = .ok (own, s') →
      WalkRequests sketchParam ParamRequests r names [] own s' → r.Tangles → T) :
    Answers (openLambda span (type.getD .null) names s) T := by
  refine (answers_intern hs h).bind ?_
  rintro ⟨own, s₁⟩ hown h₁
  obtain ⟨-, -, hg, hlt, -⟩ := Store.of_intern_eq_ok hs hown
  refine (answers_walk places_sketchParam (fun _ => ⟨_, _, rfl⟩)
    (fun hs hslot _ h ht => answers_sketchParam hs hslot h ht) hg.closed (by simp) hlt (by simp) h₁
    fun r hr => ht r own s₁ hown hr).bind ?_
  exact fun _ _ h => h

lemma answers_closeLambda {f : Lambda} {head params : Node H} {names : List (Node H)}
    {body : Sketch H} (hs : s.Closed) (hbody : body.var < s.size) (hres : f.result < s.size)
    (h : s.Finite ∨ T) (ht : Request.Tangles ⟨s, body.var, f.result⟩ → T) :
    Answers (closeLambda f span head params names body s) T := by
  refine (Store.meets_unify hs hbody hres h ht).bind ?_
  intro s₁ hu h₁
  have hg := Store.grows_unify hs hbody hres hu
  refine (answers_intern hg.closed h₁).bind ?_
  rintro ⟨v, s₂⟩ hv h₂
  obtain ⟨-, -, hg₂, -⟩ := Store.of_intern_eq_ok hg.closed hv
  exact (answers_intern hg₂.closed h₂).bind fun _ _ h => h

lemma answers_sketchForm {calleeSpan : Option Span} {items : List (Sketch H)} (hs : s.Closed)
    (hitems : ∀ t ∈ items, t.var < s.size) (h : s.Finite ∨ T)
    (harg : ∀ r callee arg args own s', items = callee :: arg :: args →
      s.intern (type.getD .null) = .ok (own, s') →
      WalkRequests sketchArg ArgRequests r ((arg :: args).map Sketch.var) [] callee.var s' →
      r.Tangles → T)
    (hcall : ∀ callee arg args own result us s₁ s₂, items = callee :: arg :: args →
      s.intern (type.getD .null) = .ok (own, s₁) →
      walkFrom sketchArg (calleeError calleeSpan) callee.var ((arg :: args).map Sketch.var) s₁ =
        .ok ((us, result), s₂) →
      Request.Tangles ⟨s₂, result, own⟩ → T) :
    Answers (sketchForm calleeSpan span (type.getD .null) items s) T := by
  match items with
  | [] | [_] => exact (answers_intern hs h).bind fun _ _ h => h
  | callee :: arg :: args =>
    refine (answers_intern hs h).bind ?_
    rintro ⟨own, s₁⟩ hown h₁
    obtain ⟨-, -, hg, hlt, -⟩ := Store.of_intern_eq_ok hs hown
    obtain ⟨hcallee, hargs⟩ := List.forall_mem_cons.1 (hg.forall_lt hitems)
    rw [← List.forall_mem_map (P := fun v => v < s₁.size)] at hargs
    refine (answers_walk places_sketchArg (fun _ => ⟨_, _, rfl⟩)
      (fun hs hslot harg h ht => answers_sketchArg hs hslot harg h ht) hg.closed (by simp) hcallee
      hargs h₁ fun r hr => harg r callee arg args own s₁ rfl hown hr).bind ?_
    rintro ⟨⟨us, v⟩, s₂⟩ hwalk h₂
    obtain ⟨-, hw⟩ := of_walk_eq_ok places_sketchArg hg.closed (by simp) hcallee hargs hwalk
    refine (Store.meets_unify hw.grows.closed hw.lt (hw.grows.lt hlt) h₂
      (hcall callee arg args own v us s₁ s₂ rfl hown hwalk)).bind ?_
    exact fun _ _ h => h

end Forms

/-! ### Nodes -/

/-- From finite types, the run on a node answers if no request of it tangles. -/
def NodeAnswers (T : Prop) (n : Node H) : Prop :=
  ∀ {scope : Params} {s : Store}, s.Closed → (∀ p ∈ scope, p.2 < s.size) → s.Finite ∨ T →
    (∀ r, Requests r scope n s → r.Tangles → T) → Answers (sketch scope n s) T

lemma NodeAnswers.all {scope : Params} {s : Store} {ns : List (Node H)}
    (hns : ∀ n ∈ ns, NodeAnswers T n) (hs : s.Closed) (hscope : ∀ p ∈ scope, p.2 < s.size)
    (h : s.Finite ∨ T)
    (ht : ∀ r before n after ts s', ns = before ++ n :: after →
      sketchAll scope before s = .ok (ts, s') → Requests r scope n s' → r.Tangles → T) :
    Answers (sketchAll scope ns s) T := by
  induction ns generalizing s with
  | nil => exact h
  | cons n ns ih =>
    obtain ⟨hn, hns⟩ := List.forall_mem_cons.1 hns
    refine (hn hs hscope h fun r hr => ht r [] n ns [] s rfl rfl hr).bind ?_
    rintro ⟨t, s₁⟩ hn h₁
    obtain ⟨hg, -⟩ := grounded n hs hscope hn
    refine (ih hns hg.closed (hg.forall_lt hscope) h₁
      fun r before m after ts s' hsplit hts => ht r (n :: before) m after (t :: ts) s'
        (by rw [hsplit]; rfl) ?_).bind ?_
    · simp only [sketchAll, hn, hts, bind, Except.bind, pure, Except.pure]
    · exact fun _ _ h => h

theorem nodeAnswers (n : Node H) : NodeAnswers T n := by
  induction n using Node.formInduction with
  | function head params body span type hhead ih =>
    intro scope s hs hscope h ht
    rw [sketch_function hhead]
    refine (meets_paramNames params).bind ?_
    intro names hnames _
    rw [ofExcept_eq_ok_iff] at hnames
    refine (answers_openLambda hs h fun r own s' hown hr =>
      ht r (.param hhead hnames hown hr)).bind ?_
    rintro ⟨f, s₁⟩ hf h₁
    obtain ⟨s₀, -, hg₀, hg₁, -, hres, hparams, -⟩ := of_openLambda_eq_ok hs hf
    have hscope' := Lambda.scope_lt names hparams ((hg₀.trans hg₁).forall_lt hscope)
    refine (ih hg₁.closed hscope' h₁ fun r hr => ht r (.body hhead hnames hf hr)).bind ?_
    rintro ⟨b, s₂⟩ hb h₂
    obtain ⟨hg₂, hbody⟩ := grounded body hg₁.closed hscope' hb
    exact answers_closeLambda hg₂.closed hbody.own.1 (hg₂.lt hres) h₂
      (ht _ (.result hhead hnames hf hb rfl))
  | list items span type hitems ih =>
    intro scope s hs hscope h ht
    rw [sketch_list hitems]
    have hall : Answers (sketchAll scope items s) T := by
      refine NodeAnswers.all ih hs hscope h fun r before n after ts s' hsplit hts hr => ht r ?_
      subst hsplit
      exact .item hitems hts hr
    refine hall.bind ?_
    rintro ⟨ts, s₁⟩ hts h₁
    obtain ⟨hg, houts⟩ := Grounded.all (fun n _ => grounded n) hs hscope hts
    refine answers_sketchForm hg.closed (var_lt_of_outlines houts) h₁ ?_ ?_
    · rintro r callee arg args own s' rfl hown hr
      exact ht r (.arg hitems hts hown hr)
    · rintro callee arg args own result us s₁ s₂ rfl hown hwalk
      exact ht _ (.call hitems hts hown hwalk rfl)
  | atom name span type =>
    intro scope s hs hscope h ht
    rw [sketch]
    refine (answers_intern hs h).bind ?_
    rintro ⟨v, s₁⟩ hv h₁
    obtain ⟨-, -, hg, hlt, -⟩ := Store.of_intern_eq_ok hs hv
    cases hparam : scope.lookup name with
    | none => exact h₁
    | some param =>
      refine (Store.meets_unify hg.closed (hg.lt (lt_of_lookup hscope hparam)) hlt h₁
        (ht _ (.name hparam hv rfl))).bind ?_
      exact fun _ _ h => h
  | leaf kind span type hlist hatom =>
    intro scope s hs hscope h ht
    rw [sketch_leaf hlist hatom]
    exact (answers_intern hs h).bind fun _ _ h => h

/-! ### Inference -/

mutual

lemma meets_resolve {s : Store} (h : s.Finite ∨ T) (t : Sketch H) :
    (t.resolve s).Meets T fun _ => True := by
  match t with
  | .leaf node v => exact (Store.meets_read h).bind fun _ _ _ => trivial
  | .list items span v =>
    exact (meets_resolveAll h items).bind fun _ _ _ =>
      (Store.meets_read h).bind fun _ _ _ => trivial

lemma meets_resolveAll {s : Store} (h : s.Finite ∨ T) (ts : List (Sketch H)) :
    (Sketch.resolveAll s ts).Meets T fun _ => True := by
  match ts with
  | [] => trivial
  | t :: ts =>
    exact (meets_resolve h t).bind fun _ _ _ => (meets_resolveAll h ts).bind fun _ _ _ => trivial

end

lemma meets_infer (n : Node H) : (infer n).Meets (Tangled n) fun _ => True := by
  refine (nodeAnswers n Store.closed_empty (by simp) (.inl Store.finite_empty)
    fun r hr ht => ⟨r, hr, ht⟩).bind ?_
  rintro ⟨k, s⟩ - h
  exact meets_resolve h k

/-- What inference gives is a model in trees of the last store. -/
lemma exists_models_of_infer {n t : Node H} (h : infer n = .ok t) :
    ∃ k s θ, sketch [] n .empty = .ok (k, s) ∧ s.Models (.trees .any) θ := by
  obtain ⟨hwell, hkeep⟩ := consistent_of_infer keepsArrows_bare (fun _ => rfl) h
  have hempty : Store.empty.Models (.trees .any) fun _ => .unknown := Store.models_empty
  obtain ⟨k, s, θ, hk, -, hm, -⟩ := succeeds SpanRel.joins_any n Store.closed_empty (by simp)
    hempty .nil (declared_of_fills (isTyping_of_infer h).1) hwell hkeep
  exact ⟨k, s, θ, hk, hm⟩

lemma not_tangled_of_infer {n t : Node H} (h : infer n = .ok t) : ¬ Tangled n := by
  rintro ⟨r, hr, ht⟩
  obtain ⟨k, s, θ, hk, hm⟩ := exists_models_of_infer h
  exact (granted Store.closed_empty (by simp) hr hk).not_tangles hm ht

/-- **Answers.**  Inference reaches a result, which is a typed node or a type error, unless its run
tangles and is not cut short by an error. -/
theorem infer_answers_iff (n : Node H) :
    ((∃ t, infer n = .ok t) ∨
        ∃ cause spans, infer n = .error (.raised (.typing cause spans))) ↔
      (Tangled n → ∃ e, infer n = .error (.raised e)) := by
  constructor
  · rintro (⟨t, ht⟩ | ⟨cause, spans, he⟩) htangled
    · exact absurd htangled (not_tangled_of_infer ht)
    · exact ⟨_, he⟩
  · intro h
    have hmeets := meets_infer n
    match hn : infer n with
    | .ok t => exact .inl ⟨t, rfl⟩
    | .error (.raised e) =>
      rw [hn] at hmeets
      obtain ⟨cause, spans, rfl⟩ := hmeets
      exact .inr ⟨cause, spans, rfl⟩
    | .error .endless =>
      rw [hn] at hmeets
      obtain ⟨e, he⟩ := h hmeets
      cases hn.symm.trans he

/-- The call `(f x)`. -/
def callOf (f x : String) : Node Empty := .list [.atom f none, .atom x none] none

/-- The function `(lambda (f g h) (k ...))` that takes some calls together. -/
def callsOf (calls : List (Node Empty)) : Node Empty :=
  .list [.atom "lambda" none, .list [.atom "f" none, .atom "g" none, .atom "h" none] none,
    .list (.atom "k" none :: calls) none] none

set_option maxRecDepth 20000 in
/-- In `(g z)`, `(f g)`, `(h f)` and `(h g)` the type of `f` is that of `g`, which it takes as an
argument.  Inference goes on without end; with the last two calls in the other order, it finds that
the type would have to contain itself. -/
theorem infer_eq_endless_in_one_order :
    infer (callsOf [callOf "g" "z", callOf "f" "g", callOf "h" "f", callOf "h" "g"]) =
        .error .endless ∧
      ∃ type, infer (callsOf [callOf "g" "z", callOf "f" "g", callOf "h" "g", callOf "h" "f"]) =
        .error (.raised (.typing (.selfContaining type) [])) :=
  ⟨by cbv, _, by cbv⟩

end Typing
end TypedLisp
