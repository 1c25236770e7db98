import TypedLisp.Proofs.Typing.Soundness

/-!
# Completeness of inference

A typing of a node that is as inference supposes solves all equations that inference makes: at
every moment of the run there is a model in trees in which the variables have the types of the
typing.  It grows with the store, since the new variables can be given the types that they have in
the typing, and no equation made on the way can fail.  So inference succeeds, and what it reads
off the last store is no more than what the typing has.
-/

namespace TypedLisp
namespace Typing

variable {H : Type} {R : SpanRel} {τ : Node H → Option Tree}

/-! ### The types of a typing as meanings -/

/-- The type of a node in a typing is right for what the node is declared to be. -/
def Declared (R : SpanRel) (τ : Node H → Option Tree) (n m : Node H) : Prop :=
  ∃ a d, typeTree? n = some a ∧ τ m = some d ∧ a.Fits (.trees R) d

/-- A variable means the type of a node. -/
def Means (τ : Node H → Option Tree) (s : Store) (θ : Var → Tree) (v : Var) (m : Node H) : Prop :=
  v < s.size ∧ τ m = some (θ v)

section Means

variable {s s' : Store} {θ θ' : Var → Tree}

lemma Means.grows {v : Var} {m : Node H} (h : Means τ s θ v m) (hle : s.size ≤ s'.size)
    (hag : s.Agree θ θ') : Means τ s' θ' v m :=
  ⟨Nat.lt_of_lt_of_le h.1 hle, by rw [h.2, hag v h.1]⟩

lemma Sketch.Outlines.means_grows {t : Sketch H} {m : Node H} (h : t.Outlines (Means τ s θ) m)
    (hle : s.size ≤ s'.size) (hag : s.Agree θ θ') : t.Outlines (Means τ s' θ') m :=
  h.imp fun _ _ h => h.grows hle hag

lemma InScope.agree {scope : Params} {types : Scope}
    (h : InScope (fun v t => t = some (θ v)) scope types) (hscope : ∀ p ∈ scope, p.2 < s.size)
    (hag : s.Agree θ θ') : InScope (fun v t => t = some (θ' v)) scope types :=
  forall₂_imp_of_mem (fun p hp _ _ h => ⟨h.1, by rw [h.2, hag p.2 (hscope p hp)]⟩) h

/-- A variable can be made for a declared type and given the type that it has in a typing. -/
lemma exists_intern_declared {n m : Node H} (hs : s.Closed) (hm : s.Models (.trees R) θ)
    (h : Declared R τ n m) :
    ∃ v s' θ', s.intern n.type = .ok (v, s') ∧ s.Grows s' ∧ s.Agree θ θ' ∧
      s'.Models (.trees R) θ' ∧ Means τ s' θ' v m := by
  obtain ⟨a, d, ha, hd, hfits⟩ := h
  obtain ⟨v, s', θ', hv, hag, hm', rfl⟩ := Store.exists_intern hs ha hm hfits
  obtain ⟨-, -, hg, hlt, -⟩ := Store.of_intern_eq_ok hs hv
  exact ⟨v, s', θ', hv, hg, hag, hm', hlt, hd⟩

end Means

/-! ### Atoms and leaves -/

/-- A node can be sketched, from any moment of a run of which a typing is a model so far. -/
def Succeeds (R : SpanRel) (τ : Node H → Option Tree) (n : Node H) : Prop :=
  ∀ {scope : Params} {types : Scope} {s : Store} {θ : Var → Tree} {m : Node H}, s.Closed →
    (∀ p ∈ scope, p.2 < s.size) → s.Models (.trees R) θ →
    InScope (fun v t => t = some (θ v)) scope types → Alike (Declared R τ) n m →
    WellTyped τ types m → Keeps τ scope n m s →
    ∃ t s' θ', sketch scope n s = .ok (t, s') ∧ s.Agree θ θ' ∧ s'.Models (.trees R) θ' ∧
      t.Outlines (Means τ s' θ') m

section Leaves

variable {scope : Params} {types : Scope} {s : Store} {θ : Var → Tree} {n m : Node H}

lemma exists_sketchLeaf (hs : s.Closed) (hm : s.Models (.trees R) θ) (h : Declared R τ n m) :
    ∃ v s' θ', sketchLeaf n s = .ok (.leaf n v, s') ∧ s.Agree θ θ' ∧ s'.Models (.trees R) θ' ∧
      Means τ s' θ' v m := by
  obtain ⟨v, s', θ', hv, -, hag, hm', hmeans⟩ := exists_intern_declared hs hm h
  refine ⟨v, s', θ', ?_, hag, hm', hmeans⟩
  simp only [sketchLeaf, hv, bind, Except.bind, pure, Except.pure]

lemma exists_sketchAtom {name : String} (hR : R.Joins) (hs : s.Closed)
    (hscope : ∀ p ∈ scope, p.2 < s.size) (hm : s.Models (.trees R) θ)
    (htypes : InScope (fun v t => t = some (θ v)) scope types) (h : Declared R τ n m)
    (hwell : ∀ t, types.lookup name = some t → τ m = t) :
    ∃ v s' θ', sketchAtom scope n name s = .ok (.leaf n v, s') ∧ s.Agree θ θ' ∧
      s'.Models (.trees R) θ' ∧ Means τ s' θ' v m := by
  obtain ⟨v, s₁, θ₁, hv, hg, hag, hm₁, hmeans⟩ := exists_intern_declared hs hm h
  rcases htypes.lookup name with ⟨hnone, -⟩ | ⟨param, t, hparam, ht, rfl⟩
  · refine ⟨v, s₁, θ₁, ?_, hag, hm₁, hmeans⟩
    simp only [sketchAtom, hv, hnone, bind, Except.bind, pure, Except.pure]
  · -- the typing gives the name the type of its parameter
    have hlt := lt_of_lookup hscope hparam
    have heq : θ₁ param = θ₁ v := by
      rw [← hag param hlt]
      exact Option.some.inj ((hwell _ ht).symm.trans hmeans.2)
    obtain ⟨s₂, hu, hm₂⟩ := Store.exists_unify hR hg.closed (hg.lt hlt) hmeans.1 hm₁ heq
    have hgu := Store.grows_unify hg.closed (hg.lt hlt) hmeans.1 hu
    refine ⟨v, s₂, θ₁, ?_, hag, hm₂, hmeans.grows hgu.size_le (.refl _ _)⟩
    simp only [sketchAtom, hv, hparam, hu, bind, Except.bind, pure, Except.pure]

end Leaves

/-! ### Calls -/

lemma Sketch.map_var_eq {s : Store} {θ : Var → Tree} {ts : List (Sketch H)} {ms : List (Node H)}
    (h : List.Forall₂ (Sketch.Outlines (Means τ s θ)) ts ms) :
    ms.map τ = (ts.map fun t => θ t.var).map some := by
  induction h with
  | nil => rfl
  | cons h _ ih => rw [List.map_cons, List.map_cons, List.map_cons, h.own.2, ih]

lemma some_map_injective {xs ys : List Tree} (h : xs.map some = ys.map some) : xs = ys :=
  List.map_injective_iff.2 (fun _ _ h => Option.some.inj h) h

lemma exists_sketchCall {calleeSpan span : Option Span} {s : Store} {θ : Var → Tree}
    {n m callee' : Node H} {callee : Sketch H} {args : List (Sketch H)} {args' : List (Node H)}
    (hR : R.Joins) (hs : s.Closed) (hm : s.Models (.trees R) θ) (h : Declared R τ n m)
    (hcallee : callee.Outlines (Means τ s θ) callee')
    (hargs : List.Forall₂ (Sketch.Outlines (Means τ s θ)) args args')
    (hwell : CallTyped τ m callee' args')
    (hkeep : ∀ own s', s.intern n.type = .ok (own, s') →
      KeepsWalk τ sketchArg callee' args' (args.map Sketch.var) callee.var s') :
    ∃ own s' θ', sketchCall calleeSpan span n.type callee args s =
        .ok (.list (callee :: args) span own, s') ∧ s.Agree θ θ' ∧ s'.Models (.trees R) θ' ∧
      s.size ≤ s'.size ∧ Means τ s' θ' own m := by
  obtain ⟨own, s₁, θ₁, hown, hg, hag, hm₁, hmeans⟩ := exists_intern_declared hs hm h
  obtain ⟨f, ts, t, hf, hts, ht, hw⟩ := hwell
  have hcom := hkeep own s₁ hown f ts hf hts
  obtain rfl := Option.some.inj (hf.symm.trans hcallee.own.2)
  obtain rfl := some_map_injective (hts.symm.trans (Sketch.map_var_eq hargs))
  have hargs_lt : ∀ arg ∈ args, arg.var < s.size := by
    intro arg harg
    obtain ⟨arg', -, h⟩ := exists_right_of_forall₂ hargs harg
    exact h.own.1
  have hcallee_lt := hcallee.own.1
  have hready : ∀ arg ∈ args.map Sketch.var, arg < s₁.size :=
    List.forall_mem_map.2 fun arg harg => hg.lt (hargs_lt arg harg)
  have hcan : CanWalk sketchArg (fun s arg => arg < s.size) ArgAsks R (args.map Sketch.var) []
      callee.var s₁ θ₁ (args.map fun t => θ t.var) t := by
    refine ⟨hg.closed, by simp, hg.lt hcallee_lt, hready, hm₁, ?_, ?_, _, hcom, fun k _ hk => ?_⟩
    · rw [← hag _ hcallee_lt]
      exact (walks_iff_walksFrom hR).1 hw
    · rw [List.forall₂_map_left_iff, List.forall₂_map_right_iff, List.forall₂_same]
      exact fun arg harg => (hag _ (hargs_lt arg harg)).symm
    · rw [← hag _ hcallee_lt]
      exact (awaits_iff hR).1 hk
  obtain ⟨bs, v, s₂, θ₂, hwalk, hag₂, hm₂, -, rfl⟩ :=
    exists_walk (calleeError calleeSpan) hR places_sketchArg hcan
  obtain ⟨-, hto⟩ := of_walk_eq_ok places_sketchArg hg.closed (by simp) (hg.lt hcallee_lt) hready
    hwalk
  -- what the walk leaves over means the type of the call, and so does the variable of the call
  have hown_lt := hto.grows.lt hmeans.1
  have heq : θ₂ v = θ₂ own := by
    rw [← hag₂ own hmeans.1]
    exact Option.some.inj (ht.symm.trans hmeans.2)
  obtain ⟨s₃, hu, hm₃⟩ := Store.exists_unify hR hto.grows.closed hto.lt hown_lt hm₂ heq
  have hgu := Store.grows_unify hto.grows.closed hto.lt hown_lt hu
  refine ⟨own, s₃, θ₂, ?_, hag.trans hg.size_le hag₂, hm₃,
    (hg.trans (hto.grows.trans hgu)).size_le,
    hmeans.grows (hto.grows.trans hgu).size_le hag₂⟩
  simp only [sketchCall, walkFrom, hown, hwalk, hu, bind, Except.bind, pure, Except.pure]

/-- A list that is no function. -/
lemma exists_sketchForm {calleeSpan span : Option Span} {s : Store} {θ : Var → Tree} {n m : Node H}
    {items : List (Sketch H)} {ms : List (Node H)} (hR : R.Joins) (hs : s.Closed)
    (hm : s.Models (.trees R) θ) (h : Declared R τ n m)
    (hitems : List.Forall₂ (Sketch.Outlines (Means τ s θ)) items ms)
    (hwell : ∀ callee arg args, ms = callee :: arg :: args → CallTyped τ m callee (arg :: args))
    (hkeep : KeepsForm τ n.type items ms s) :
    ∃ own s' θ', sketchForm calleeSpan span n.type items s = .ok (.list items span own, s') ∧
      s.Agree θ θ' ∧ s'.Models (.trees R) θ' ∧ s.size ≤ s'.size ∧ Means τ s' θ' own m := by
  match items, ms, hitems with
  | [], _, _ | [_], _, _ =>
    obtain ⟨own, s', θ', hown, hg, hag, hm', hmeans⟩ := exists_intern_declared hs hm h
    refine ⟨own, s', θ', ?_, hag, hm', hg.size_le, hmeans⟩
    simp only [sketchForm, sketchList, hown, bind, Except.bind, pure, Except.pure]
  | callee :: arg :: args, _, .cons hcallee (.cons harg hargs) =>
    exact exists_sketchCall hR hs hm h hcallee (.cons harg hargs) (hwell _ _ _ rfl) hkeep

/-! ### Functions -/

lemma paramNames_of_alike {S : Node H → Node H → Prop} {params params' : Node H}
    {ps : List (Node H)} (h : Alike S params params') (hps : params'.list? = some ps)
    (hne : ps ≠ []) (hatoms : ∀ p ∈ ps, p.atom?.isSome) :
    ∃ names, paramNames params = .ok names ∧ List.Forall₂ (Alike S) names ps := by
  cases h with
  | leaf hkind => exact absurd (kind_of_list? hps) (hkind ps)
  | @list names _ span type type' h items =>
    obtain rfl := Option.some.inj hps
    refine ⟨names, paramNames_eq_ok_iff.2 ⟨rfl, ?_, fun name hname => ?_⟩, items⟩
    · rintro rfl
      cases items
      exact hne rfl
    · obtain ⟨p, hp, h⟩ := exists_right_of_forall₂ items hname
      rw [h.atom?_eq]
      exact hatoms p hp

lemma outlines_params {P : Var → Node H → Prop} {S : Node H → Node H → Prop}
    {params params' : Node H} {ps : List (Node H)} {leaves : List (Sketch H)} {w : Var}
    (h : Alike S params params') (hps : params'.list? = some ps) (hw : P w params')
    (hleaves : List.Forall₂ (Sketch.Outlines P) leaves ps) :
    (Sketch.list leaves params.span w).Outlines P params' := by
  cases h with
  | leaf hkind => exact absurd (kind_of_list? hps) (hkind ps)
  | list =>
    obtain rfl := Option.some.inj hps
    exact .list hw hleaves

lemma forall₂_of_map_eq {ps : List (Node H)} {ts : List Tree} (h : ps.map τ = ts.map some) :
    List.Forall₂ (fun p t => τ p = some t) ps ts := by
  rw [← List.forall₂_map_left_iff (f := τ) (R := fun o t => o = some t),
    ← List.forall₂_map_right_iff (f := some) (R := fun o o' => o = o'), h]
  exact List.forall₂_refl _

lemma exists_openLambda {span : Option Span} {s : Store} {θ : Var → Tree} {n m : Node H}
    {names ps : List (Node H)} {f t : Tree} {ts : List Tree} (hR : R.Joins) (hs : s.Closed)
    (hm : s.Models (.trees R) θ) (h : Declared R τ n m)
    (hnames : List.Forall₂ (Alike (Declared R τ)) names ps) (hf : τ m = some f)
    (hts : ps.map τ = ts.map some) (hw : Walks f ts t)
    (hkeep : KeepsFunction τ n.type names m ps s) :
    ∃ g s' θ', openLambda span n.type names s = .ok (g, s') ∧ s.Agree θ θ' ∧
      s'.Models (.trees R) θ' ∧ Means τ s' θ' g.own m ∧ g.params.map θ' = ts ∧ θ' g.result = t := by
  obtain ⟨own, s₁, θ₁, hown, hg, hag, hm₁, hmeans⟩ := exists_intern_declared hs hm h
  have hcom := hkeep own s₁ hown f ts hf hts
  obtain rfl := Option.some.inj (hf.symm.trans hmeans.2)
  have hasks : List.Forall₂ (ParamAsks (.trees R) θ₁) names ts := by
    refine forall₂_trans_of_mem ?_ hnames (forall₂_of_map_eq hts)
    rintro name - p t hname hp
    obtain ⟨a, d, ha, hd, hfits⟩ := hname.own
    obtain rfl := Option.some.inj (hd.symm.trans hp)
    exact ⟨a, ha, hfits⟩
  have hcan : CanWalk sketchParam (fun _ _ => True) ParamAsks R names [] own s₁ θ₁ ts t := by
    refine ⟨hg.closed, by simp, hmeans.1, by simp, hm₁, (walks_iff_walksFrom hR).1 hw, hasks, _,
      hcom, fun k _ hk => (awaits_iff hR).1 hk⟩
  obtain ⟨vs, r, s₂, θ₂, hwalk, hag₂, hm₂, hvs, hr⟩ :=
    exists_walk (lambdaError span) hR places_sketchParam hcan
  obtain ⟨hlen, hto⟩ :=
    of_walk_eq_ok places_sketchParam hg.closed (by simp) hmeans.1 (by simp) hwalk
  refine ⟨⟨own, vs, r⟩, s₂, θ₂, ?_, hag.trans hg.size_le hag₂, hm₂,
    hmeans.grows hto.grows.size_le hag₂, ?_, hr⟩
  · simp only [openLambda, walkFrom, hown, hwalk, bind, Except.bind, pure, Except.pure]
  · rw [← List.map_uncurry_zip_eq_zipWith] at hvs
    rw [← hvs]
    exact congrArg (List.map θ₂) (List.map_snd_zip (Nat.le_of_eq hlen)).symm

lemma exists_closeLambda {f : Lambda} {head params head' params' : Node H} {body : Sketch H}
    {s : Store} {θ : Var → Tree} (span : Option Span) (names : List (Node H)) (hR : R.Joins)
    (hs : s.Closed) (hm : s.Models (.trees R) θ) (hbody : body.var < s.size)
    (hres : f.result < s.size) (heq : θ body.var = θ f.result) (hhead : Declared R τ head head')
    (hparams : Declared R τ params params') :
    ∃ v w s' θ', closeLambda f span head params names body s =
        .ok (.list [.leaf head v,
          .list (List.zipWith Sketch.leaf names f.params) params.span w, body] span f.own, s') ∧
      s.Agree θ θ' ∧ s'.Models (.trees R) θ' ∧ s.size ≤ s'.size ∧ Means τ s' θ' v head' ∧
      Means τ s' θ' w params' := by
  obtain ⟨s₁, hu, hm₁⟩ := Store.exists_unify hR hs hbody hres hm heq
  have hgu := Store.grows_unify hs hbody hres hu
  obtain ⟨v, s₂, θ₂, hv, hg₂, hag₂, hm₂, hmv⟩ := exists_intern_declared hgu.closed hm₁ hhead
  obtain ⟨w, s₃, θ₃, hw, hg₃, hag₃, hm₃, hmw⟩ := exists_intern_declared hg₂.closed hm₂ hparams
  have hag : s.Agree θ θ₂ := fun u hu => hag₂ u (hgu.lt hu)
  refine ⟨v, w, s₃, θ₃, ?_, hag.trans (hgu.trans hg₂).size_le hag₃, hm₃,
    (hgu.trans (hg₂.trans hg₃)).size_le, hmv.grows hg₃.size_le hag₃, hmw⟩
  simp only [closeLambda, hu, hv, hw, bind, Except.bind, pure, Except.pure]

/-! ### Nodes -/

lemma Succeeds.all {scope : Params} {types : Scope} {s : Store} {θ : Var → Tree}
    {ns ms : List (Node H)} (hns : ∀ n ∈ ns, Succeeds R τ n) (hs : s.Closed)
    (hscope : ∀ p ∈ scope, p.2 < s.size) (hm : s.Models (.trees R) θ)
    (htypes : InScope (fun v t => t = some (θ v)) scope types)
    (h : List.Forall₂ (Alike (Declared R τ)) ns ms) (hwell : ∀ m ∈ ms, WellTyped τ types m)
    (hkeep : KeepsAll τ scope ns ms s) :
    ∃ ts s' θ', sketchAll scope ns s = .ok (ts, s') ∧ s.Agree θ θ' ∧ s'.Models (.trees R) θ' ∧
      List.Forall₂ (Sketch.Outlines (Means τ s' θ')) ts ms := by
  induction ns generalizing s θ ms with
  | nil =>
    cases h
    exact ⟨[], s, θ, rfl, .refl s θ, hm, .nil⟩
  | cons n ns ih =>
    cases h with
    | @cons _ m _ ms hn h =>
      obtain ⟨hsucceeds, hns⟩ := List.forall_mem_cons.1 hns
      obtain ⟨hwellm, hwell⟩ := List.forall_mem_cons.1 hwell
      obtain ⟨t, s₁, θ₁, ht, hag, hm₁, hout⟩ := hsucceeds hs hscope hm htypes hn hwellm hkeep.1
      obtain ⟨hg, -⟩ := grounded n hs hscope ht
      have hscope₁ : ∀ p ∈ scope, p.2 < s₁.size := hg.forall_lt hscope
      obtain ⟨ts, s₂, θ₂, hts, hag₂, hm₂, houts⟩ := ih hns hg.closed hscope₁ hm₁
        (htypes.agree hscope hag) h hwell (hkeep.2 t s₁ ht)
      obtain ⟨hg₂, -⟩ := Grounded.all (fun n _ => grounded n) hg.closed hscope₁ hts
      refine ⟨t :: ts, s₂, θ₂, ?_, hag.trans hg.size_le hag₂, hm₂,
        .cons (hout.means_grows hg₂.size_le hag₂) houts⟩
      simp only [sketchAll, ht, hts, bind, Except.bind, pure, Except.pure]

/-- Inference succeeds on every node that has a typing which is as inference supposes. -/
theorem succeeds (hR : R.Joins) (n : Node H) : Succeeds R τ n := by
  induction n using Node.formInduction with
  | function head params body span type hhead ih =>
    intro scope types s θ m hs hscope hm htypes h hwell hkeep
    obtain ⟨head', params', body', type', rfl, hown, halike, hparams, hbody⟩ := h.exists_triple
    have hhead' := halike.isAtom hhead
    obtain ⟨⟨ps, hps, hne, hatoms, f, ts, t, hf, hts, ht, hw⟩, hwell⟩ :=
      (wellTyped_function hhead').1 hwell
    obtain ⟨names, hnames, halikes⟩ := paramNames_of_alike hparams hps hne hatoms
    obtain ⟨hkeepf, hkeepb⟩ := (keeps_function hhead).1 hkeep names hnames
    rw [hps] at hkeepf
    obtain ⟨g, s₁, θ₁, hg, hag, hm₁, hmown, hmparams, rfl⟩ :=
      exists_openLambda (n := ⟨.list [head, params, body], span, type⟩) hR hs hm hown
        halikes hf hts hw hkeepf
    obtain ⟨s₀, -, hg₀, hg₁, -, hres, hparams_lt, hlen, -⟩ := of_openLambda_eq_ok hs hg
    have hgrows := hg₀.trans hg₁
    have hleaves : List.Forall₂ (Sketch.Outlines (Means τ s₁ θ₁))
        (List.zipWith Sketch.leaf names g.params) ps := by
      refine outlines_leaves (paramNames_eq_ok_iff.1 hnames).2.2 halikes ?_
      obtain rfl := hmparams
      have hmean := List.forall₂_map_right_iff.1 (forall₂_of_map_eq hts)
      exact forall₂_imp_of_mem (fun v hv _ _ h => ⟨hparams_lt v hv, h⟩) hmean.flip
    have htypes₁ := (htypes.agree hscope hag).body (fun _ _ h => h.2) hlen hleaves hps
    have hscope₁ := Lambda.scope_lt names hparams_lt (hgrows.forall_lt hscope)
    obtain ⟨b, s₂, θ₂, hb, hag₂, hm₂, hout⟩ :=
      ih hg₁.closed hscope₁ hm₁ htypes₁ hbody hwell (hkeepb g s₁ hg)
    obtain ⟨hg₂, -⟩ := grounded body hg₁.closed hscope₁ hb
    -- the body has the type that the walk of the function leaves over
    have heq : θ₂ b.var = θ₂ g.result := by
      rw [← hag₂ _ hres]
      exact Option.some.inj (hout.own.2.symm.trans ht)
    obtain ⟨v, w, s₃, θ₃, hclose, hag₃, hm₃, hle₃, hmv, hmw⟩ := exists_closeLambda span names
      hR hg₂.closed hm₂ hout.own.1 (hg₂.lt hres) heq halike.own hparams.own
    have hag₁₃ : s₁.Agree θ₁ θ₃ := hag₂.trans hg₂.size_le hag₃
    have hle₁₃ : s₁.size ≤ s₃.size := hg₂.size_le.trans hle₃
    refine ⟨.list [.leaf head v, .list (List.zipWith Sketch.leaf names g.params) params.span w,
      b] span g.own, s₃, θ₃, ?_, hag.trans hgrows.size_le hag₁₃, hm₃,
      .list (hmown.grows hle₁₃ hag₁₃) (.cons ?_ (.cons ?_ (.cons ?_ .nil)))⟩
    · rw [sketch_function hhead, hnames]
      simp only [Outcome.ofExcept, bind, Except.bind]
      rw [show type.getD .null = (⟨.list [head, params, body], span, type⟩ : Node H).type
        from rfl, hg]
      simp only [hb, hclose]
    · exact outlines_leaf (isSome_atom?_of_isAtom hhead) halike hmv
    · exact outlines_params hparams hps hmw
        (forall₂_imp_of_mem (fun _ _ _ _ h => h.means_grows hle₁₃ hag₁₃) hleaves)
    · exact hout.means_grows hle₃ hag₃
  | list items span type hitems ih =>
    intro scope types s θ m hs hscope hm htypes h hwell hkeep
    obtain ⟨ms, type', rfl, hown, halike⟩ := h.exists_list
    have hms : ¬ IsFunction ms := fun hms => hitems (isFunction_of_alike halike hms)
    obtain ⟨hcall, hwell⟩ := (wellTyped_list hms).1 hwell
    obtain ⟨hkeep, hform⟩ := (keeps_list hitems).1 hkeep
    obtain ⟨ts, s₁, θ₁, hts, hag, hm₁, hout⟩ :=
      Succeeds.all ih hs hscope hm htypes halike hwell hkeep
    obtain ⟨hg, -⟩ := Grounded.all (fun n _ => grounded n) hs hscope hts
    obtain ⟨own, s₂, θ₂, hsk, hag₂, hm₂, hle, hmeans⟩ :=
      exists_sketchForm (n := ⟨.list items, span, type⟩) hR hg.closed hm₁ hown hout hcall
        (hform ts s₁ hts)
    refine ⟨.list ts span own, s₂, θ₂, ?_, hag.trans hg.size_le hag₂, hm₂, .list hmeans ?_⟩
    · rw [sketch_list hitems, hts]
      exact hsk
    · exact forall₂_imp_of_mem (fun _ _ _ _ h => h.means_grows hle hag₂) hout
  | atom name span type =>
    intro scope types s θ m hs hscope hm htypes h hwell hkeep
    cases h with
    | leaf hkind hown =>
      obtain ⟨v, s', θ', hv, hag, hm', hmeans⟩ :=
        exists_sketchAtom hR hs hscope hm htypes hown hwell
      exact ⟨_, s', θ', by rw [sketch, hv], hag, hm', .leaf hkind hmeans⟩
  | leaf kind span type hlist hatom =>
    intro scope types s θ m hs hscope hm htypes h hwell hkeep
    obtain ⟨type', rfl, hown⟩ := h.exists_leaf hlist
    obtain ⟨v, s', θ', hv, hag, hm', hmeans⟩ := exists_sketchLeaf hs hm hown
    exact ⟨_, s', θ', by rw [sketch_leaf hlist hatom, hv], hag, hm', .leaf hlist hmeans⟩

/-! ### Inference -/

lemma exists_outlines_isRead {s : Store} {k : Sketch H} {P : Var → Node H → Prop} {n : Node H}
    (h : k.Outlines P n) (hreads : ∀ v n, P v n → ∃ t, s.Reads v t) :
    ∃ t, k.Outlines (IsRead s) t := by
  induction n using Node.induction generalizing k with
  | list items span type ih =>
    obtain ⟨ks, v, rfl, hv, hitems⟩ := h.exists_list
    obtain ⟨u, hu⟩ := hreads _ _ hv
    obtain ⟨ts, hts⟩ : ∃ ts, List.Forall₂ (Sketch.Outlines (IsRead s)) ks ts := by
      refine exists_forall₂ ?_
      intro k hk
      obtain ⟨n, hn, h⟩ := exists_right_of_forall₂ hitems hk
      exact ih n hn h
    exact ⟨⟨.list ts, span, u.stored?⟩, .list ⟨u, hu, rfl⟩ hts⟩
  | leaf kind span type hkind =>
    obtain ⟨type', v, rfl, hv⟩ := h.exists_leaf hkind
    obtain ⟨u, hu⟩ := hreads _ _ hv
    exact ⟨⟨kind, span, u.stored?⟩, .leaf hkind ⟨u, hu, rfl⟩⟩

/-- If a node has a typing which is as inference supposes, inference succeeds with types that are
no more than those of the typing. -/
theorem exists_infer {n m : Node H} (hR : R.Joins) (h : Alike (Declared R τ) n m)
    (hwell : WellTyped τ [] m) (hkeep : Keeps τ [] n m .empty) :
    ∃ t, infer n = .ok t ∧ Alike (Declared R τ) t m := by
  have hempty : Store.empty.Models (.trees R) fun _ => .unknown := Store.models_empty
  obtain ⟨k, s, θ, hk, -, hm, hout⟩ := succeeds hR n Store.closed_empty (by simp)
    hempty .nil h hwell hkeep
  obtain ⟨hg, hn⟩ := grounded n Store.closed_empty (by simp) hk
  obtain ⟨t, ht⟩ := exists_outlines_isRead hn fun v _ _ => hm.exists_reads hg.closed v
  refine ⟨t, ?_, ht.alike ?_ hout⟩
  · have hres := (Sketch.resolve_eq_ok_iff hg.closed hn).2 ht
    simp only [infer, hk, hres, bind, Except.bind]
  · rintro v a b ⟨u, hu, ha⟩ ⟨-, hb⟩
    exact ⟨u, θ v, typeTree?_of_stored? ha, hb, hm.fits_of_reads hu⟩

end Typing
end TypedLisp
