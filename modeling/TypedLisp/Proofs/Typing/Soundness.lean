import Mathlib
import TypedLisp.Proofs.Typing.Sketching

/-!
# Soundness of inference

The types that inference writes into a node are consistent.  While a node is sketched, equations
between variables are made, which hold in every later store; so they hold of the classes of the
last one, off which all types are read.  The proof goes by induction over the node, with that last
store fixed: what is read off it obeys the rules, and it is as inference supposed on the way.
-/

namespace TypedLisp
namespace Typing

variable {H : Type}

/-! ### What is read off the last store -/

namespace Store

variable {s : Store} {f v : Var} {args : List Var} {a t : Tree} {ts : List Tree}

/-- A walk of classes is a walk of the trees that are read off them. -/
lemma walks_of_walksFrom (hs : s.Closed)
    (h : s.graph.WalksFrom [] (s.root f) (args.map s.root) (s.root v)) (hf : s.Reads f a)
    (hargs : List.Forall₂ s.Reads args ts) (hv : s.Reads v t) : Walks a ts t := by
  obtain ⟨us, u, hus, hu, hw⟩ := exists_reads_of_walksFrom hs h .nil (hf.root hs)
  have hargs' := List.forall₂_map_left_iff.2 (forall₂_imp_of_mem (fun _ _ _ _ h => h.root hs) hargs)
  have huniq : us = ts :=
    forall₂_right_unique (fun _ _ _ _ h h' => h.unique h') hus hargs'
  rw [huniq, hu.unique (hv.root hs)] at hw
  exact (walks_iff_walksFrom SpanRel.joins_any).2 hw

lemma awaits_of_awaits {left : Nat} (hs : s.Closed)
    (h : s.graph.Awaits [] (s.root f) (args.map s.root) left) (hf : s.Reads f a)
    (hargs : List.Forall₂ s.Reads args ts) : Awaits a ts left := by
  obtain ⟨before, after, g, r, heq, hleft, hafter, hw, hg⟩ := h
  obtain ⟨us, u, hus, hu, hw⟩ := exists_reads_of_walksFrom hs hw .nil (hf.root hs)
  obtain ⟨ws, hws, harrow⟩ := hu.of_isArrow hs hg
  obtain ⟨ws₁, ws₂, hws₁, hws₂, rfl⟩ := exists_append_of_forall₂_append hws
  cases hws₂ with
  | cons _ hnil =>
    cases hnil
    have hargs' := List.forall₂_map_left_iff.2
      (forall₂_imp_of_mem (fun _ _ _ _ h => h.root hs) hargs)
    rw [heq] at hargs'
    have huniq : us ++ ws₁ = ts :=
      forall₂_right_unique (fun _ _ _ _ h h' => h.unique h') (List.rel_append hus hws₁) hargs'
    refine (awaits_iff SpanRel.joins_any).2 ⟨us, ws₁, u, _, huniq.symm, ?_, ?_, hw, harrow⟩
    · rw [← hws₁.length_eq, hleft]
    · rintro rfl
      cases hws₁
      exact hafter rfl

end Store

/-! ### The scope -/

/-- The parameters in scope and their types in a typing: `P` holds of each variable and the type
in its place. -/
def InScope (P : Var → Option Tree → Prop) (scope : Params) (types : Scope) : Prop :=
  List.Forall₂ (fun p q => p.1 = q.1 ∧ P p.2 q.2) scope types

namespace InScope

variable {P : Var → Option Tree → Prop} {scope : Params} {types : Scope}

lemma lookup (h : InScope P scope types) (name : String) :
    (scope.lookup name = none ∧ types.lookup name = none) ∨
      ∃ v t, scope.lookup name = some v ∧ types.lookup name = some t ∧ P v t := by
  induction h with
  | nil => exact .inl ⟨rfl, rfl⟩
  | @cons p q scope types hpq _ ih =>
    obtain ⟨hname, hP⟩ := hpq
    rw [List.lookup_cons, List.lookup_cons, ← hname]
    split
    · exact .inr ⟨_, _, rfl, rfl, hP⟩
    · exact ih

lemma body {Q : Var → Node H → Prop} {τ : Node H → Option Tree} {f : Lambda}
    {names ps : List (Node H)} {params : Node H} (hQ : ∀ v n, Q v n → P v (τ n))
    (hlen : names.length = f.params.length)
    (hps : List.Forall₂ (Sketch.Outlines Q) (List.zipWith Sketch.leaf names f.params) ps)
    (hparams : params.list? = some ps) (h : InScope P scope types) :
    InScope P (f.scope names scope) (bodyScope τ params types) := by
  have hleaves : ∀ {names ps : List (Node H)} {vs : List Var}, names.length = vs.length →
      List.Forall₂ (Sketch.Outlines Q) (List.zipWith Sketch.leaf names vs) ps →
      InScope P ((names.map fun p => p.atom?.getD "").zip vs)
        (ps.map fun p => (p.atom?.getD "", τ p)) := by
    intro names
    induction names with
    | nil =>
      intro ps vs _ h
      cases h
      exact .nil
    | cons name names ih =>
      intro ps vs hlen h
      cases vs with
      | nil => cases hlen
      | cons v vs =>
        cases h with
        | cons h hs =>
          cases h with
          | leaf _ h => exact .cons ⟨rfl, hQ _ _ h⟩ (ih (Nat.succ.inj hlen) hs)
  rw [bodyScope, hparams]
  exact List.rel_append (List.rel_reverse (hleaves hlen hps)) h

end InScope

/-! ### Ways to take a type -/

/-- A way to take the tree of a type that keeps arrows, such as to forget the spans. -/
def KeepsArrows (g : Tree → Tree) : Prop :=
  ∀ {t r : Tree} {args : List Tree}, t.IsArrow args r → (g t).IsArrow (args.map g) (g r)

lemma keepsArrows_id : KeepsArrows id := by
  intro t r args h
  rwa [List.map_id]

lemma keepsArrows_bare : KeepsArrows Tree.bare := by
  rintro t r args ⟨hargs, headSpan, span, rfl⟩
  refine ⟨fun h => hargs (List.map_eq_nil_iff.1 h), none, none, ?_⟩
  rw [Tree.bare_list, List.map_cons, List.map_append, List.map_singleton, Tree.bare_atom]

lemma Walks.map {g : Tree → Tree} (hg : KeepsArrows g) {f t : Tree} {args : List Tree}
    (h : Walks f args t) : Walks (g f) (args.map g) (g t) := by
  induction h with
  | done t => exact .done _
  | through h _ ih =>
    rw [List.map_append]
    exact .through (hg h) ih
  | partway hargs h ht =>
    have h' := hg h
    rw [List.map_append] at h'
    exact .partway (fun hnil => hargs (List.map_eq_nil_iff.1 hnil)) h' (hg ht)

lemma Awaits.map {g : Tree → Tree} (hg : KeepsArrows g) {f : Tree} {args : List Tree} {left : Nat}
    (h : Awaits f args left) : Awaits (g f) (args.map g) left := by
  obtain ⟨before, after, x, t, rfl, rfl, hw, hx⟩ := h
  exact ⟨before.map g, after.map g, g x, g t, List.map_append, List.length_map _, hw.map hg, hg hx⟩

/-! ### Nodes -/

variable {sf : Store} {g : Tree → Tree} {τ : Node H → Option Tree}

lemma IsRead.reads {v : Var} {n : Node H} (hτ : ∀ n, τ n = (typeTree? n).map g)
    (h : IsRead sf v n) : ∃ t, sf.Reads v t ∧ τ n = some (g t) := by
  obtain ⟨t, ht, hn⟩ := h
  exact ⟨t, ht, by rw [hτ, typeTree?_of_stored? hn]; rfl⟩

lemma reads_of_outlines {ts : List (Sketch H)} {ms : List (Node H)}
    (hτ : ∀ n, τ n = (typeTree? n).map g)
    (h : List.Forall₂ (Sketch.Outlines (IsRead sf)) ts ms) :
    ∃ us, List.Forall₂ sf.Reads (ts.map Sketch.var) us ∧ ms.map τ = (us.map g).map some := by
  induction h with
  | nil => exact ⟨[], .nil, rfl⟩
  | cons h _ ih =>
    obtain ⟨u, hu, hm⟩ := h.own.reads hτ
    obtain ⟨us, hus, hms⟩ := ih
    exact ⟨u :: us, .cons hu hus, by rw [List.map_cons, hm, hms]; rfl⟩

/-- A walk of classes that ends in the type of a node is a walk of the types that are read off. -/
lemma exists_walks {v w : Var} {vs : List Var} {n m : Node H} {ms : List (Node H)} {us : List Tree}
    (hsf : sf.Closed) (hg : KeepsArrows g) (hτ : ∀ n : Node H, τ n = (typeTree? n).map g)
    (hw : sf.graph.WalksFrom [] (sf.root v) (vs.map sf.root) (sf.root w)) (hn : IsRead sf v n)
    (hm : IsRead sf w m) (hvs : List.Forall₂ sf.Reads vs us)
    (hms : ms.map τ = (us.map g).map some) :
    ∃ f ts t, τ n = some f ∧ ms.map τ = ts.map some ∧ τ m = some t ∧ Walks f ts t := by
  obtain ⟨f, hf, hn⟩ := hn.reads hτ
  obtain ⟨t, ht, hm⟩ := hm.reads hτ
  exact ⟨g f, us.map g, g t, hn, hms, hm, (Store.walks_of_walksFrom hsf hw hf hvs ht).map hg⟩

/-- A walk of inference is as the types have it that are read off. -/
lemma keepsWalk_of_commits {α β : Type} {each : α → Var → Store → Outcome (β × Store)} {v : Var}
    {vs : List Var} {s : Store} {args : List α} {n : Node H} {ms : List (Node H)} {us : List Tree}
    (hsf : sf.Closed) (hg : KeepsArrows g) (hτ : ∀ n : Node H, τ n = (typeTree? n).map g)
    (hcom : Commits each (sf.graph.Awaits [] (sf.root v) (vs.map sf.root)) args [] v s)
    (hn : IsRead sf v n) (hvs : List.Forall₂ sf.Reads vs us)
    (hms : ms.map τ = (us.map g).map some) : KeepsWalk τ each n ms args v s := by
  intro f ts hf hts
  obtain ⟨u, hu, hn⟩ := hn.reads hτ
  obtain rfl := Option.some.inj (hf.symm.trans hn)
  obtain rfl : ts = us.map g :=
    List.map_injective_iff.2 (fun _ _ h => Option.some.inj h) (hts.symm.trans hms)
  exact hcom.imp fun k hk => (Store.awaits_of_awaits hsf hk hu hvs).map hg

lemma Sketch.Outlines.isAtom {P : Var → Node H → Prop} {n m : Node H} {v : Var} {name : String}
    (h : (Sketch.leaf n v).Outlines P m) (hn : n.isAtom name) : m.isAtom name := by
  cases h with
  | leaf => exact hn

lemma map_var_leaves {names : List (Node H)} {vs : List Var} (hlen : names.length = vs.length) :
    (List.zipWith Sketch.leaf names vs).map Sketch.var = vs := by
  rw [List.map_zipWith, ← List.map_uncurry_zip_eq_zipWith]
  exact List.map_snd_zip (Nat.le_of_eq hlen.symm)

/-- What a store read at the end says of a node that has been sketched on the way. -/
def Consistent (τ : Node H → Option Tree) (g : Tree → Tree) (sf : Store) (n : Node H) : Prop :=
  ∀ {scope : Params} {types : Scope} {s s' : Store} {t : Sketch H} {m : Node H}, s.Closed →
    (∀ p ∈ scope, p.2 < s.size) → sketch scope n s = .ok (t, s') → sf.Knows s' →
    InScope (fun v t => ∃ u, sf.Reads v u ∧ t = some (g u)) scope types →
    t.Outlines (IsRead sf) m → WellTyped τ types m ∧ Keeps τ scope n m s

lemma Consistent.all {scope : Params} {types : Scope} {s s' : Store} {ns ms : List (Node H)}
    {ts : List (Sketch H)} (hns : ∀ n ∈ ns, Consistent τ g sf n) (hs : s.Closed)
    (hscope : ∀ p ∈ scope, p.2 < s.size) (h : sketchAll scope ns s = .ok (ts, s'))
    (hk : sf.Knows s')
    (htypes : InScope (fun v t => ∃ u, sf.Reads v u ∧ t = some (g u)) scope types)
    (hms : List.Forall₂ (Sketch.Outlines (IsRead sf)) ts ms) :
    (∀ m ∈ ms, WellTyped τ types m) ∧ KeepsAll τ scope ns ms s := by
  induction ns generalizing s ts ms with
  | nil =>
    obtain ⟨rfl, rfl⟩ := Prod.mk.inj (Except.ok.inj h)
    cases hms
    exact ⟨by simp, trivial⟩
  | cons n ns ih =>
    rw [sketchAll] at h
    obtain ⟨⟨t, s₁⟩, ht, h⟩ := Except.exists_of_bind_eq_ok h
    obtain ⟨⟨ts, s₂⟩, hts, h⟩ := Except.exists_of_bind_eq_ok h
    obtain ⟨rfl, rfl⟩ := Prod.mk.inj (Except.ok.inj h)
    cases hms with
    | cons hm hms =>
      obtain ⟨hg₁, -⟩ := grounded n hs hscope ht
      have hscope₁ : ∀ p ∈ scope, p.2 < s₁.size := hg₁.forall_lt hscope
      obtain ⟨hg₂, -⟩ := Grounded.all (fun n _ => grounded n) hg₁.closed hscope₁ hts
      have hk₁ : sf.Knows s₁ := hg₂.models sf.splits_graph hk
      obtain ⟨hn, hns⟩ := List.forall_mem_cons.1 hns
      obtain ⟨hw, hkeep⟩ := hn hs hscope ht hk₁ htypes hm
      obtain ⟨hws, hkeeps⟩ := ih hns hg₁.closed hscope₁ hts hms
      refine ⟨List.forall_mem_cons.2 ⟨hw, hws⟩, hkeep, ?_⟩
      intro t' s₁' ht'
      obtain ⟨rfl, rfl⟩ := Except.eq_of_eq_ok ht' ht
      exact hkeeps

/-- What is read off a store at the end is consistent and as inference supposed on the way. -/
theorem consistent (hsf : sf.Closed) (hg : KeepsArrows g)
    (hτ : ∀ n : Node H, τ n = (typeTree? n).map g) (n : Node H) : Consistent τ g sf n := by
  induction n using Node.formInduction with
  | function head params body span type hhead ih =>
    intro scope types s s' t m hs hscope h hk htypes hm
    rw [sketch_function hhead] at h
    obtain ⟨names, hnames, h⟩ := Except.exists_of_bind_eq_ok h
    obtain ⟨⟨f, s₁⟩, hf, h⟩ := Except.exists_of_bind_eq_ok h
    obtain ⟨⟨b, s₂⟩, hb, h⟩ := Except.exists_of_bind_eq_ok h
    have hnames' := ofExcept_eq_ok_iff.1 hnames
    obtain ⟨hlist, hne, hatoms⟩ := paramNames_eq_ok_iff.1 hnames'
    obtain ⟨s₀, hown, hg₀, hg₁, hlt, hres, hparams, hlen, hwalk⟩ := of_openLambda_eq_ok hs hf
    have hscope₁ := Lambda.scope_lt names hparams ((hg₀.trans hg₁).forall_lt hscope)
    obtain ⟨hg₂, hbody⟩ := grounded body hg₁.closed hscope₁ hb
    obtain ⟨v, w, rfl, hg₃, -, -, hresult⟩ :=
      of_closeLambda_eq_ok hg₂.closed hbody.own.1 (hg₂.lt hres) h
    -- the last store knows what each of the stores on the way knew
    have hk₂ : sf.Knows s₂ := hg₃.models sf.splits_graph hk
    have hk₁ : sf.Knows s₁ := hg₂.models sf.splits_graph hk₂
    obtain ⟨hw, -, hcom⟩ := hwalk sf.splits_graph hk₁
    obtain ⟨ms, mtype, rfl, hread, hitems⟩ := hm.exists_nodes
    obtain ⟨head', params', body', rfl, hhead', hparams', hbody'⟩ := exists_of_forall₂_triple hitems
    obtain ⟨ps, ptype, rfl, -, hps⟩ := hparams'.exists_nodes
    obtain ⟨us, hus, hms⟩ := reads_of_outlines hτ hps
    rw [map_var_leaves hlen] at hus
    have hlist' : (⟨.list ps, params.span, ptype⟩ : Node H).list? = some ps := rfl
    have hself (n : Node H) : Alike (fun _ _ => True) n n := .refl (fun _ => trivial) n
    have hleaves := outlines_leaves hatoms (List.forall₂_same.2 fun n _ => hself n)
      (declares_params hg₁.closed hparams fun hI hm => (hwalk hI hm).2.1)
    have halike : List.Forall₂ (Alike fun _ _ => True) names ps := by
      refine forall₂_trans_of_mem ?_ hleaves.flip hps
      exact fun _ _ _ _ hn hm => hn.alike (fun _ _ _ _ _ => trivial) hm
    -- the body, in whose scope the parameters have the types that are read off
    obtain ⟨hwell, hkeep⟩ := ih hg₁.closed hscope₁ hb hk₂
      (htypes.body (fun v n h => h.reads hτ) hlen hps hlist') hbody'
    rw [wellTyped_function (hhead'.isAtom hhead), keeps_function hhead]
    refine ⟨⟨⟨ps, hlist', ?_, ?_, ?_⟩, hwell⟩, fun names' hnames'' => ?_⟩
    · rintro rfl
      cases halike
      exact hne rfl
    · intro p hp
      obtain ⟨name, hname, h⟩ := exists_left_of_forall₂ halike hp
      rw [← h.atom?_eq]
      exact hatoms name hname
    · rw [← hresult sf.splits_graph hk] at hw
      exact exists_walks hsf hg hτ hw hread hbody'.own hus hms
    · -- the run that inference supposes is this one
      obtain rfl := Except.ok.inj (hnames''.symm.trans hnames')
      refine ⟨fun own' s₀' hown' => ?_, fun f' s₁' hf' => ?_⟩
      · obtain ⟨rfl, rfl⟩ := Except.eq_of_eq_ok hown' hown
        exact keepsWalk_of_commits hsf hg hτ hcom hread hus hms
      · obtain ⟨rfl, rfl⟩ := Except.eq_of_eq_ok hf' hf
        exact hkeep
  | list items span type hitems ih =>
    intro scope types s s' t m hs hscope h hk htypes hm
    rw [sketch_list hitems] at h
    obtain ⟨⟨ts, s₁⟩, hts, h⟩ := Except.exists_of_bind_eq_ok h
    obtain ⟨hg₁, hdecl⟩ := Grounded.all (fun n _ => grounded n) hs hscope hts
    obtain ⟨own, s₂, hown, rfl, hg₂, hg₃, hcall⟩ :=
      of_sketchForm_eq_ok hg₁.closed (var_lt_of_outlines hdecl) h
    have hk₁ : sf.Knows s₁ := (hg₂.trans hg₃).models sf.splits_graph hk
    obtain ⟨ms, mtype, rfl, hread, hms⟩ := hm.exists_nodes
    obtain ⟨hwell, hkeep⟩ := Consistent.all ih hs hscope hts hk₁ htypes hms
    have halike : List.Forall₂ (Alike fun _ _ => True) items ms := by
      refine forall₂_trans_of_mem ?_ hdecl.flip hms
      exact fun _ _ _ _ hn hm => hn.alike (fun _ _ _ _ _ => trivial) hm
    rw [wellTyped_list fun h => hitems (isFunction_of_alike halike h), keeps_list hitems]
    refine ⟨⟨?_, hwell⟩, hkeep, fun ts' s₁' hts' => ?_⟩
    · rintro callee' arg' args' rfl
      obtain _ | ⟨hcallee, _ | ⟨harg, hargs⟩⟩ := hms
      obtain ⟨us, hus, hms⟩ := reads_of_outlines hτ (.cons harg hargs)
      obtain ⟨hw, -⟩ := hcall _ _ _ rfl sf.splits_graph hk
      refine exists_walks hsf hg hτ ?_ hcallee.own hread hus hms
      rwa [List.map_map]
    · obtain ⟨rfl, rfl⟩ := Except.eq_of_eq_ok hts' hts
      match ts', ms, hms with
      | [], _, _ | [_], _, _ => trivial
      | callee :: arg :: args, _ :: _ :: _, .cons hcallee hms =>
        intro own' s₂' hown'
        obtain ⟨rfl, rfl⟩ := Except.eq_of_eq_ok hown' hown
        obtain ⟨us, hus, hms⟩ := reads_of_outlines hτ hms
        obtain ⟨-, hcom⟩ := hcall callee arg args rfl sf.splits_graph hk
        refine keepsWalk_of_commits hsf hg hτ ?_ hcallee.own hus hms
        rwa [List.map_map]
  | atom name span type =>
    intro scope types s s' t m hs hscope h hk htypes hm
    rw [sketch] at h
    obtain ⟨hg, v, rfl, -, hparam⟩ := of_sketchAtom_eq_ok hs hscope h
    cases hm with
    | leaf _ hm =>
      refine ⟨fun t ht => ?_, trivial⟩
      obtain ⟨u, hu, hmu⟩ := hm.reads hτ
      -- the name and its parameter are of one class, off which one tree is read
      rcases htypes.lookup name with ⟨-, hnone⟩ | ⟨w, t', hw, ht', u', hu', rfl⟩
      · cases ht.symm.trans hnone
      · obtain rfl := Option.some.inj (ht.symm.trans ht')
        have heq := hparam w hw sf.splits_graph hk
        rw [hmu, hu.unique (hu'.of_root_eq heq)]
  | leaf kind span type hlist hatom =>
    intro scope types s s' t m hs hscope h hk htypes hm
    rw [sketch_leaf hlist hatom] at h
    obtain ⟨hg, v, rfl, -⟩ := of_sketchLeaf_eq_ok hs h
    cases hm with
    | leaf _ hm => exact ⟨wellTyped_leaf hlist hatom, keeps_leaf hlist⟩

/-! ### Inference -/

/-- What inference gives has been read off the last store of a run. -/
lemma of_infer_eq_ok {n t : Node H} (h : infer n = .ok t) :
    ∃ k s, sketch [] n .empty = .ok (k, s) ∧ s.Closed ∧ k.Outlines (Declares s) n ∧
      k.Outlines (IsRead s) t := by
  obtain ⟨⟨k, s⟩, hk, h⟩ := Except.exists_of_bind_eq_ok h
  obtain ⟨hg, hn⟩ := grounded n Store.closed_empty (by simp) hk
  exact ⟨k, s, hk, hg.closed, hn, (Sketch.resolve_eq_ok_iff hg.closed hn).1 h⟩

/-- What inference gives is consistent and as inference supposed on the way. -/
lemma consistent_of_infer (hg : KeepsArrows g) (hτ : ∀ n : Node H, τ n = (typeTree? n).map g)
    {n t : Node H} (h : infer n = .ok t) : WellTyped τ [] t ∧ Keeps τ [] n t .empty := by
  obtain ⟨k, s, hk, hs, -, ht⟩ := of_infer_eq_ok h
  exact consistent hs hg hτ n Store.closed_empty (by simp) hk hs.knows_self .nil ht

/-- **Soundness.**  The types that inference writes into a node are consistent up to spans. -/
theorem wellTyped_of_infer {n t : Node H} (h : infer n = .ok t) : WellTyped form? [] t :=
  (consistent_of_infer keepsArrows_bare (fun _ => rfl) h).1

/-- The function `(lambda (f x) (f x x))`, of which only the parameter `x` is declared. -/
def twoArguments : Node Empty :=
  .list [.atom "lambda" none,
    .list [.atom "f" none, (Node.atom "x" none).withType (.atom "int" none)] none,
    .list [.atom "f" none, .atom "x" none, .atom "x" none] none] none

/-- The function with the types that follow. -/
def twoArgumentsTyped : Node Empty :=
  let int := .atom "int" none
  let f := (Node.atom "f" none).withType (.list [.atom "->" none, int, int, .null] none)
  let x := (Node.atom "x" none).withType int
  (Node.list [.atom "lambda" none, .list [f, x] none, .list [f, x, x] none] none).withType
    (.list [.atom "->" none, f.type, int, .null] none)

theorem wellTyped_twoArgumentsTyped :
    infer twoArguments = .ok twoArgumentsTyped ∧ WellTyped form? [] twoArgumentsTyped :=
  have h : infer twoArguments = .ok twoArgumentsTyped := by cbv
  ⟨h, wellTyped_of_infer h⟩

end Typing
end TypedLisp
