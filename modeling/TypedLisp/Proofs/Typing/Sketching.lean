import TypedLisp.Proofs.Typing.Outline
import TypedLisp.Proofs.Typing.WalkRun

/-!
# What sketching a node leads to

One statement for each operation of inference says what its success means: the store has grown,
what was declared is known of the new variables, and the equations that the form of the node asks
for hold in every model.  From these, `grounded` says of whole nodes that a sketch has the form of
its node and that what the node declares is known from then on.
-/

namespace TypedLisp
namespace Typing

variable {H : Type} {s s' : Store}

/-! ### Declared types -/

/-- What a node is declared to be is known of a variable. -/
def Declares (s : Store) (v : Var) (n : Node H) : Prop :=
  v < s.size ∧ ∃ a, typeTree? n = some a ∧
    ∀ {D : Type} {I : Interpretation D} {ρ : Var → D}, I.Splits → s.Models I ρ → a.Fits I (ρ v)

lemma Declares.grows {v : Var} {n : Node H} (h : Declares s v n) (hg : s.Grows s') :
    Declares s' v n := by
  obtain ⟨hlt, a, ha, hfits⟩ := h
  exact ⟨hg.lt hlt, a, ha, fun hI hm => hfits hI (hg.models hI hm)⟩

lemma Sketch.Outlines.grows {t : Sketch H} {n : Node H} (h : t.Outlines (Declares s) n)
    (hg : s.Grows s') : t.Outlines (Declares s') n :=
  h.imp fun _ _ h => h.grows hg

lemma declares_of_intern {n : Node H} {v : Var} (hs : s.Closed)
    (h : s.intern n.type = .ok (v, s')) : s.Grows s' ∧ Declares s' v n := by
  obtain ⟨a, ha, hg, hlt, hfits⟩ := Store.of_intern_eq_ok hs h
  exact ⟨hg, hlt, a, ha, hfits⟩

/-- What is declared can be seen in what is read off a later store. -/
lemma Declares.fits {sf : Store} {v : Var} {n m : Node H} (h : Declares s v n)
    (hsf : sf.Closed) (hk : sf.Knows s) (hm : IsRead sf v m) :
    ∃ a t, typeTree? n = some a ∧ typeTree? m = some t ∧ a.Fits (.trees .kept) t := by
  obtain ⟨-, a, ha, hfits⟩ := h
  obtain ⟨t, ht, hmt⟩ := hm
  exact ⟨a, t, ha, typeTree?_of_stored? hmt,
    Store.fits_trees_of_fits_graph hsf (hfits sf.splits_graph hk) ht⟩

/-- The variables of a sketch are variables of the store. -/
lemma var_lt_of_outlines {ts : List (Sketch H)} {ns : List (Node H)}
    (h : List.Forall₂ (Sketch.Outlines (Declares s)) ts ns) : ∀ t ∈ ts, t.var < s.size := by
  intro t ht
  obtain ⟨n, -, hn⟩ := exists_right_of_forall₂ h ht
  exact hn.own.1

/-! ### Leaves -/

variable {scope : Params} {n : Node H} {t : Sketch H}

lemma of_sketchLeaf_eq_ok (hs : s.Closed) (h : sketchLeaf n s = .ok (t, s')) :
    s.Grows s' ∧ ∃ v, t = .leaf n v ∧ Declares s' v n := by
  obtain ⟨⟨v, s₁⟩, hv, h⟩ := Except.exists_of_bind_eq_ok h
  obtain ⟨rfl, rfl⟩ := Prod.mk.inj (Except.ok.inj h)
  obtain ⟨hg, hd⟩ := declares_of_intern hs hv
  exact ⟨hg, v, rfl, hd⟩

lemma lt_of_lookup {name : String} {v : Var} {k : Nat} (hscope : ∀ p ∈ scope, p.2 < k)
    (h : scope.lookup name = some v) : v < k := by
  induction scope with
  | nil => cases h
  | cons p scope ih =>
    rw [List.lookup_cons] at h
    split at h
    · obtain rfl := Option.some.inj h
      exact hscope p (by simp)
    · exact ih (fun q hq => hscope q (by simp [hq])) h

/-- A name has the type of the parameter that it refers to. -/
lemma of_sketchAtom_eq_ok {name : String} (hs : s.Closed) (hscope : ∀ p ∈ scope, p.2 < s.size)
    (h : sketchAtom scope n name s = .ok (t, s')) :
    s.Grows s' ∧ ∃ v, t = .leaf n v ∧ Declares s' v n ∧
      ∀ param, scope.lookup name = some param →
        ∀ {D : Type} {I : Interpretation D} {ρ : Var → D}, I.Splits → s'.Models I ρ →
          ρ param = ρ v := by
  obtain ⟨⟨v, s₁⟩, hv, h⟩ := Except.exists_of_bind_eq_ok h
  obtain ⟨hg, hd⟩ := declares_of_intern hs hv
  cases hl : scope.lookup name with
  | none =>
    simp only [hl] at h
    obtain ⟨rfl, rfl⟩ := Prod.mk.inj (Except.ok.inj h)
    exact ⟨hg, v, rfl, hd, fun _ h => nomatch h⟩
  | some param =>
    simp only [hl] at h
    obtain ⟨s₂, hu, h⟩ := Except.exists_of_bind_eq_ok h
    obtain ⟨rfl, rfl⟩ := Prod.mk.inj (Except.ok.inj h)
    have hparam := hg.lt (lt_of_lookup hscope hl)
    have hgu := Store.grows_unify hg.closed hparam hd.1 hu
    refine ⟨hg.trans hgu, v, rfl, hd.grows hgu, fun param' hp _ _ _ hI hm => ?_⟩
    obtain rfl := Option.some.inj hp
    exact ((Store.of_unify_eq_ok hg.closed hparam hd.1 hu).2.2 hI hm).2

/-! ### Calls -/

/-- In a call, walking the type of the callee along the types of the arguments ends in the type of
the whole. -/
lemma of_sketchCall_eq_ok {calleeSpan span : Option Span} {type : Node H} {callee : Sketch H}
    {args : List (Sketch H)} (hs : s.Closed) (hcallee : callee.var < s.size)
    (hargs : ∀ arg ∈ args, arg.var < s.size)
    (h : sketchCall calleeSpan span type callee args s = .ok (t, s')) :
    ∃ own s₁, s.intern type = .ok (own, s₁) ∧ t = .list (callee :: args) span own ∧
      s.Grows s₁ ∧ s₁.Grows s' ∧
      ∀ {D : Type} {I : Interpretation D} {ρ : Var → D}, I.Splits → s'.Models I ρ →
        I.WalksFrom [] (ρ callee.var) (args.map fun arg => ρ arg.var) (ρ own) ∧
        Commits sketchArg (I.Awaits [] (ρ callee.var) (args.map fun arg => ρ arg.var))
          (args.map Sketch.var) [] callee.var s₁ := by
  obtain ⟨⟨own, s₁⟩, hown, h⟩ := Except.exists_of_bind_eq_ok h
  obtain ⟨⟨⟨us, v⟩, s₂⟩, hwalk, h⟩ := Except.exists_of_bind_eq_ok h
  obtain ⟨s₃, hu, h⟩ := Except.exists_of_bind_eq_ok h
  obtain ⟨rfl, rfl⟩ := Prod.mk.inj (Except.ok.inj h)
  obtain ⟨_, _, hg, hlt, -⟩ := Store.of_intern_eq_ok hs hown
  have hargs' : ∀ a ∈ args.map Sketch.var, a < s₁.size :=
    List.forall_mem_map.2 fun arg harg => hg.lt (hargs arg harg)
  obtain ⟨hlen, hw⟩ := of_walk_eq_ok places_sketchArg hg.closed (by simp) (hg.lt hcallee) hargs'
    hwalk
  have hgu := Store.grows_unify hw.grows.closed hw.lt (hw.grows.lt hlt) hu
  refine ⟨own, s₁, hown, rfl, hg, hw.grows.trans hgu, fun {_ _ ρ} hI hm => ?_⟩
  obtain ⟨hm₂, heq⟩ := (Store.of_unify_eq_ok hw.grows.closed hw.lt (hw.grows.lt hlt) hu).2.2 hI hm
  -- the variables of the arguments are the arguments
  have hvars : (List.zipWith (fun arg _ => arg) (args.map Sketch.var) us).map ρ =
      args.map fun arg => ρ arg.var := by
    rw [← List.map_uncurry_zip_eq_zipWith]
    exact (congrArg (List.map ρ) (List.map_fst_zip (Nat.le_of_eq hlen.symm))).trans List.map_map
  have hwalks := hw.walks hI hm₂
  have hcom := hw.commits hI hm₂
  rw [hvars] at hwalks hcom
  rw [← heq]
  exact ⟨hwalks, hcom⟩

/-- A list whose items are sketched: its type is declared, and it may be a call. -/
lemma of_sketchForm_eq_ok {calleeSpan span : Option Span} {type : Node H} {items : List (Sketch H)}
    (hs : s.Closed) (hitems : ∀ t ∈ items, t.var < s.size)
    (h : sketchForm calleeSpan span type items s = .ok (t, s')) :
    ∃ own s₁, s.intern type = .ok (own, s₁) ∧ t = .list items span own ∧ s.Grows s₁ ∧
      s₁.Grows s' ∧ ∀ callee arg args, items = callee :: arg :: args →
        ∀ {D : Type} {I : Interpretation D} {ρ : Var → D}, I.Splits → s'.Models I ρ →
          I.WalksFrom [] (ρ callee.var) ((arg :: args).map fun arg => ρ arg.var) (ρ own) ∧
          Commits sketchArg
            (I.Awaits [] (ρ callee.var) ((arg :: args).map fun arg => ρ arg.var))
            ((arg :: args).map Sketch.var) [] callee.var s₁ := by
  have hlist : ∀ {items : List (Sketch H)}, sketchList span type items s = .ok (t, s') →
      ∃ own, s.intern type = .ok (own, s') ∧ t = .list items span own ∧ s.Grows s' := by
    intro items h
    obtain ⟨⟨own, s₁⟩, hown, h⟩ := Except.exists_of_bind_eq_ok h
    obtain ⟨rfl, rfl⟩ := Prod.mk.inj (Except.ok.inj h)
    obtain ⟨_, _, hg, -⟩ := Store.of_intern_eq_ok hs hown
    exact ⟨own, hown, rfl, hg⟩
  match items, h with
  | [], h | [_], h =>
    obtain ⟨own, hown, ht, hg⟩ := hlist h
    exact ⟨own, s', hown, ht, hg, .refl hg.closed, by simp⟩
  | callee :: arg :: args, h =>
    obtain ⟨hcallee, hargs⟩ := List.forall_mem_cons.1 hitems
    obtain ⟨own, s₁, hown, ht, hg, hg', hw⟩ := of_sketchCall_eq_ok hs hcallee hargs h
    refine ⟨own, s₁, hown, ht, hg, hg', ?_⟩
    rintro _ _ _ ⟨⟩ D I ρ hI hm
    exact hw hI hm

/-! ### Functions -/

lemma ofExcept_eq_ok_iff {α : Type} {x : Except Error α} {a : α} :
    Outcome.ofExcept x = .ok a ↔ x = .ok a := by
  cases x <;> simp [Outcome.ofExcept]

lemma isSome_atom?_of_isAtom {n : Node H} {name : String} (h : n.isAtom name) :
    n.atom?.isSome := by
  rw [Node.isAtom, beq_iff_eq] at h
  rw [h]
  rfl

lemma paramNames_eq_ok_iff {params : Node H} {names : List (Node H)} :
    paramNames params = .ok names ↔
      params.list? = some names ∧ names ≠ [] ∧ ∀ p ∈ names, p.atom?.isSome := by
  unfold paramNames
  split
  · next h => simp [h]
  · next h =>
    rw [h]
    constructor
    · simp
    · rintro ⟨heq, hne, -⟩
      exact absurd (Option.some.inj heq).symm hne
  · next ps hps h =>
    rw [h]
    split
    · next bad hbad =>
      have hnone := List.find?_some hbad
      constructor
      · simp
      · rintro ⟨heq, -, hall⟩
        obtain rfl := Option.some.inj heq
        have := hall bad (List.mem_of_find?_eq_some hbad)
        simp_all
    · next hnone =>
      rw [List.find?_eq_none] at hnone
      constructor
      · intro h
        obtain rfl := Except.ok.inj h
        exact ⟨rfl, hps, fun p hp => by simpa [Option.isSome_iff_ne_none] using hnone p hp⟩
      · rintro ⟨heq, -, -⟩
        rw [Option.some.inj heq]

/-- In a function, walking the type of the whole along the types of the parameters ends in the
type of the body. -/
lemma of_openLambda_eq_ok {span : Option Span} {type : Node H} {names : List (Node H)}
    {f : Lambda} (hs : s.Closed) (h : openLambda span type names s = .ok (f, s')) :
    ∃ s₁, s.intern type = .ok (f.own, s₁) ∧ s.Grows s₁ ∧ s₁.Grows s' ∧ f.own < s₁.size ∧
      f.result < s'.size ∧ (∀ v ∈ f.params, v < s'.size) ∧ names.length = f.params.length ∧
      ∀ {D : Type} {I : Interpretation D} {ρ : Var → D}, I.Splits → s'.Models I ρ →
        I.WalksFrom [] (ρ f.own) (f.params.map ρ) (ρ f.result) ∧
        List.Forall₂ (ParamAsks I ρ) names (f.params.map ρ) ∧
        Commits sketchParam (I.Awaits [] (ρ f.own) (f.params.map ρ)) names [] f.own s₁ := by
  obtain ⟨⟨own, s₁⟩, hown, h⟩ := Except.exists_of_bind_eq_ok h
  obtain ⟨⟨⟨vs, r⟩, s₂⟩, hwalk, h⟩ := Except.exists_of_bind_eq_ok h
  obtain ⟨rfl, rfl⟩ := Prod.mk.inj (Except.ok.inj h)
  obtain ⟨_, _, hg, hlt, -⟩ := Store.of_intern_eq_ok hs hown
  obtain ⟨hlen, hw⟩ := of_walk_eq_ok places_sketchParam hg.closed (by simp) hlt (by simp) hwalk
  -- the variables of the parameters are the ones that the walk has given
  have hvars : List.zipWith (fun _ v => v) names vs = vs := by
    rw [← List.map_uncurry_zip_eq_zipWith]
    exact List.map_snd_zip (Nat.le_of_eq hlen)
  rw [hvars] at hw
  exact ⟨s₁, hown, hg, hw.grows, hlt, hw.lt, hw.args_lt, hlen.symm,
    fun hI hm => ⟨hw.walks hI hm, hw.asks hI hm, hw.commits hI hm⟩⟩

/-- The body of a function has the type that is left over from the walk. -/
lemma of_closeLambda_eq_ok {f : Lambda} {span : Option Span} {head params : Node H}
    {names : List (Node H)} {body : Sketch H} (hs : s.Closed) (hbody : body.var < s.size)
    (hres : f.result < s.size) (h : closeLambda f span head params names body s = .ok (t, s')) :
    ∃ v w, t = .list [.leaf head v,
        .list (List.zipWith Sketch.leaf names f.params) params.span w, body] span f.own ∧
      s.Grows s' ∧ Declares s' v head ∧ Declares s' w params ∧
      ∀ {D : Type} {I : Interpretation D} {ρ : Var → D}, I.Splits → s'.Models I ρ →
        ρ body.var = ρ f.result := by
  obtain ⟨s₁, hu, h⟩ := Except.exists_of_bind_eq_ok h
  obtain ⟨⟨v, s₂⟩, hv, h⟩ := Except.exists_of_bind_eq_ok h
  obtain ⟨⟨w, s₃⟩, hw, h⟩ := Except.exists_of_bind_eq_ok h
  obtain ⟨rfl, rfl⟩ := Prod.mk.inj (Except.ok.inj h)
  have hgu := Store.grows_unify hs hbody hres hu
  obtain ⟨hgv, hdv⟩ := declares_of_intern hgu.closed hv
  obtain ⟨hgw, hdw⟩ := declares_of_intern hgv.closed hw
  exact ⟨v, w, rfl, hgu.trans (hgv.trans hgw), hdv.grows hgw, hdw, fun hI hm =>
    ((Store.of_unify_eq_ok hs hbody hres hu).2.2 hI ((hgv.trans hgw).models hI hm)).2⟩

/-- The parameters of a function are as they are declared. -/
lemma declares_params {names : List (Node H)} {vs : List Var} (hs : s.Closed)
    (hlt : ∀ v ∈ vs, v < s.size)
    (h : ∀ {D : Type} {I : Interpretation D} {ρ : Var → D}, I.Splits → s.Models I ρ →
      List.Forall₂ (ParamAsks I ρ) names (vs.map ρ)) :
    List.Forall₂ (Declares s) vs names := by
  induction names generalizing vs with
  | nil =>
    cases vs with
    | nil => exact .nil
    | cons v vs => cases h s.splits_graph hs.knows_self
  | cons name names ih =>
    cases vs with
    | nil => cases h s.splits_graph hs.knows_self
    | cons v vs =>
      obtain ⟨hv, hvs⟩ := List.forall_mem_cons.1 hlt
      refine .cons ⟨hv, ?_⟩ (ih hvs fun hI hm => (List.forall₂_cons.1 (h hI hm)).2)
      -- that there is a declared type is seen in one model, that it fits in all of them
      obtain ⟨a, ha, -⟩ := (List.forall₂_cons.1 (h s.splits_graph hs.knows_self)).1
      refine ⟨a, ha, fun hI hm => ?_⟩
      obtain ⟨b, hb, hfits⟩ := (List.forall₂_cons.1 (h hI hm)).1
      obtain rfl := Option.some.inj (ha.symm.trans hb)
      exact hfits

lemma kind_of_list? {n : Node H} {items : List (Node H)} (h : n.list? = some items) :
    n.kind = .list items := by
  obtain ⟨kind, span, type⟩ := n
  cases kind with
  | list ns => exact congrArg Kind.list (Option.some.inj h)
  | quoted _ | atom _ | str _ | null | keyword _ | value _ | procedure _ => cases h

lemma outlines_leaf {P : Var → Node H → Prop} {S : Node H → Node H → Prop} {n m : Node H} {v : Var}
    (hn : n.atom?.isSome) (halike : Alike S n m) (h : P v m) : (Sketch.leaf n v).Outlines P m := by
  cases halike with
  | list => cases hn
  | leaf hkind => exact .leaf hkind h

/-- A sketch of some atoms outlines the nodes that they are alike. -/
lemma outlines_leaves {P : Var → Node H → Prop} {S : Node H → Node H → Prop}
    {names ps : List (Node H)} {vs : List Var} (hatoms : ∀ p ∈ names, p.atom?.isSome)
    (halike : List.Forall₂ (Alike S) names ps) (h : List.Forall₂ P vs ps) :
    List.Forall₂ (Sketch.Outlines P) (List.zipWith Sketch.leaf names vs) ps := by
  induction halike generalizing vs with
  | nil =>
    cases h
    exact .nil
  | cons hname _ ih =>
    cases h with
    | cons hv h =>
      obtain ⟨hatom, hatoms⟩ := List.forall_mem_cons.1 hatoms
      exact .cons (outlines_leaf hatom hname hv) (ih hatoms h)

lemma Lambda.scope_lt {f : Lambda} {k : Nat} (names : List (Node H)) (hf : ∀ v ∈ f.params, v < k)
    (hscope : ∀ p ∈ scope, p.2 < k) : ∀ p ∈ f.scope names scope, p.2 < k := by
  intro p hp
  rcases List.mem_append.1 hp with hp | hp
  · exact hf p.2 (List.of_mem_zip (List.mem_reverse.1 hp)).2
  · exact hscope p hp

/-! ### Nodes -/

/-- What it takes to be sure of the sketch of a node. -/
def Grounded (n : Node H) : Prop :=
  ∀ {scope : Params} {s s' : Store} {t : Sketch H}, s.Closed → (∀ p ∈ scope, p.2 < s.size) →
    sketch scope n s = .ok (t, s') → s.Grows s' ∧ t.Outlines (Declares s') n

lemma Grounded.all {ns : List (Node H)} {ts : List (Sketch H)} (hns : ∀ n ∈ ns, Grounded n)
    (hs : s.Closed) (hscope : ∀ p ∈ scope, p.2 < s.size)
    (h : sketchAll scope ns s = .ok (ts, s')) :
    s.Grows s' ∧ List.Forall₂ (Sketch.Outlines (Declares s')) ts ns := by
  induction ns generalizing s ts with
  | nil =>
    obtain ⟨rfl, rfl⟩ := Prod.mk.inj (Except.ok.inj h)
    exact ⟨.refl hs, .nil⟩
  | cons n ns ih =>
    rw [sketchAll] at h
    obtain ⟨⟨t, s₁⟩, ht, h⟩ := Except.exists_of_bind_eq_ok h
    obtain ⟨⟨ts, s₂⟩, hts, h⟩ := Except.exists_of_bind_eq_ok h
    obtain ⟨rfl, rfl⟩ := Prod.mk.inj (Except.ok.inj h)
    obtain ⟨hground, hns⟩ := List.forall_mem_cons.1 hns
    obtain ⟨hg, hn⟩ := hground hs hscope ht
    obtain ⟨hg', hns'⟩ := ih hns hg.closed (hg.forall_lt hscope) hts
    exact ⟨hg.trans hg', .cons (hn.grows hg') hns'⟩

/-- A sketch outlines its node, and what is declared in the node is known from then on. -/
theorem grounded (n : Node H) : Grounded n := by
  induction n using Node.formInduction with
  | function head params body span type hhead ih =>
    intro scope s s' t hs hscope h
    rw [sketch_function hhead] at h
    obtain ⟨names, hnames, h⟩ := Except.exists_of_bind_eq_ok h
    obtain ⟨⟨f, s₁⟩, hf, h⟩ := Except.exists_of_bind_eq_ok h
    obtain ⟨⟨b, s₂⟩, hb, h⟩ := Except.exists_of_bind_eq_ok h
    obtain ⟨hlist, hne, hatoms⟩ := paramNames_eq_ok_iff.1 (ofExcept_eq_ok_iff.1 hnames)
    obtain ⟨s₀, hown, hg₀, hg₁, hlt, hres, hparams, -, hwalk⟩ := of_openLambda_eq_ok hs hf
    have hg₀₁ := hg₀.trans hg₁
    have hscope₁ := Lambda.scope_lt names hparams (hg₀₁.forall_lt hscope)
    obtain ⟨hg₂, hbody⟩ := ih hg₁.closed hscope₁ hb
    obtain ⟨v, w, rfl, hg₃, hhead', hparams', -⟩ :=
      of_closeLambda_eq_ok hg₂.closed hbody.own.1 (hg₂.lt hres) h
    have hg' := hg₂.trans hg₃
    obtain ⟨-, hd⟩ := declares_of_intern (n := ⟨.list [head, params, body], span, type⟩) hs hown
    -- the parameters were declared on the walk, the word `lambda` and their list come at the end
    have hself (n : Node H) : Alike (fun _ _ => True) n n := .refl (fun _ => trivial) n
    have hleaves := outlines_leaves hatoms (List.forall₂_same.2 fun n _ => hself n)
      (declares_params hg₁.closed hparams fun hI hm => (hwalk hI hm).2.1)
    refine ⟨hg₀₁.trans hg', .list (hd.grows (hg₁.trans hg')) (.cons ?_ (.cons ?_
      (.cons (hbody.grows hg₃) .nil)))⟩
    · exact outlines_leaf (isSome_atom?_of_isAtom hhead) (hself head) hhead'
    · obtain ⟨kind, paramsSpan, paramsType⟩ := params
      obtain rfl : kind = .list names := kind_of_list? hlist
      exact .list hparams' (forall₂_imp_of_mem (fun _ _ _ _ h => h.grows hg') hleaves)
  | list items span type hitems ih =>
    intro scope s s' t hs hscope h
    rw [sketch_list hitems] at h
    obtain ⟨⟨ts, s₁⟩, hts, h⟩ := Except.exists_of_bind_eq_ok h
    obtain ⟨hg, hts⟩ := Grounded.all ih hs hscope hts
    obtain ⟨own, s₂, hown, rfl, hg₂, hg', -⟩ :=
      of_sketchForm_eq_ok hg.closed (var_lt_of_outlines hts) h
    obtain ⟨-, hd⟩ := declares_of_intern (n := ⟨.list items, span, type⟩) hg.closed hown
    refine ⟨hg.trans (hg₂.trans hg'), .list (hd.grows hg') ?_⟩
    exact forall₂_imp_of_mem (fun _ _ _ _ h => h.grows (hg₂.trans hg')) hts
  | atom name span type =>
    intro scope s s' t hs hscope h
    rw [sketch] at h
    obtain ⟨hg, v, rfl, hd, -⟩ := of_sketchAtom_eq_ok hs hscope h
    exact ⟨hg, .leaf (by simp) hd⟩
  | leaf kind span type hlist hatom =>
    intro scope s s' t hs hscope h
    rw [sketch_leaf hlist hatom] at h
    obtain ⟨hg, v, rfl, hd⟩ := of_sketchLeaf_eq_ok hs h
    exact ⟨hg, .leaf hlist hd⟩

end Typing
end TypedLisp
