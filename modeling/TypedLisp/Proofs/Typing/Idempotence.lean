import TypedLisp.Proofs.Typing.Completeness

/-!
# Inference leaves its own results alone

What inference gives is a typing of itself, spans included, since it fills in nothing.  Run on it,
inference comes upon nothing but arrows, because all types are declared and stay known.  So it
succeeds, with types that are no more than those declared; and as these are known in the end, they
are no less either, down to the spans.
-/

namespace TypedLisp
namespace Typing

variable {H α β : Type}

/-! ### Walks along what is known -/

section Known

variable {each : α → Var → Store → Outcome (β × Store)} {ready : Store → α → Prop}
  {var : α → β → Var} {asks : ∀ {D : Type}, Interpretation D → (Var → D) → α → D → Prop}
  {args : List α} {slots : List Var} {result : Var} {s s' : Store} {P : Nat → Prop}

/-- A tree of the type of a variable is known. -/
def Store.Shows (s : Store) (v : Var) (t : Tree) : Prop := t.Fits s.graph (s.root v)

lemma Store.Shows.grows {v : Var} {t : Tree} (h : s.Shows v t) (hs : s.Closed) (hg : s.Grows s') :
    s'.Shows v t :=
  hg.knows.fits hs h

/-- Where an arrow is known, inference finds one. -/
lemma exists_arrow?_of_shows {ts : List Tree} {t : Tree} (hs : s.Closed) (h : s.Shows result t)
    (ht : (Interpretation.trees .any).IsArrow ts t) (hlen : 2 ≤ ts.length) :
    ∃ a, s.cell result ≠ .unknown ∧ s.arrow? result = some a ∧
      List.Forall₂ s.Shows a.types ts := by
  obtain ⟨headSpan, span, rfl⟩ := (Interpretation.isArrow_trees_iff SpanRel.joins_any).1 ht
  obtain ⟨ds, hds, hlist⟩ := h
  rw [Tree.fitsAll_iff_forall₂] at hds
  cases hds with
  | @cons _ head _ ds hhead hds =>
    obtain ⟨headSpan', -, hh⟩ := hhead
    obtain ⟨vs, span', -, hvs, hc⟩ := hlist
    cases vs with
    | nil => cases hvs
    | cons v vs =>
      obtain ⟨rfl, rfl⟩ := List.cons.inj hvs
      -- no span is asked of an arrow, so any will do
      have hkept : ∀ span, SpanRel.kept none span := fun span h => nomatch h
      have harrow : s.graph.IsArrow (vs.map s.root) (s.root result) :=
        ⟨s.root v, ⟨headSpan', hkept _, hh⟩, v :: vs, span', hkept _, rfl, hc⟩
      have hlen' : 2 ≤ vs.length := by rwa [← List.length_map s.root, ← hds.length_eq]
      obtain ⟨a, ha, htypes⟩ := Store.exists_arrow? hs harrow hlen'
      rw [← htypes, List.forall₂_map_right_iff] at hds
      refine ⟨a, fun hunknown => ?_, ha, hds.flip⟩
      rw [hs.cell_root, hunknown] at hc
      cases hc

/-- Along what is known, a walk comes upon nothing but arrows. -/
lemma commits_of_shows {ss ts : List Tree} {r t : Tree} (hp : Places each ready var asks)
    (hs : s.Closed) (hslots : ∀ i ∈ slots, i < s.size) (hargs : ∀ a ∈ args, ready s a)
    (hss : List.Forall₂ s.Shows slots ss) (hr : s.Shows result r)
    (hw : (Interpretation.trees .any).WalksFrom ss r ts t) (hlen : args.length = ts.length) :
    Commits each P args slots result s := by
  induction args generalizing slots result s ss ts r with
  | nil => trivial
  | cons arg args ih =>
    cases ts with
    | nil => exact absurd hlen (by simp)
    | cons d ts =>
      -- an argument that takes its place leaves what is known
      have step : ∀ {slots : List Var} {slot result : Var} {ss : List Tree} {r : Tree},
          (∀ i ∈ slots, i < s.size) → slot < s.size → List.Forall₂ s.Shows slots ss →
          s.Shows result r → (Interpretation.trees .any).WalksFrom ss r ts t →
          ∀ b s', each arg slot s = .ok (b, s') → Commits each P args slots result s' := by
        intro slots slot result ss r hslots hslot hss hr hw b s' hb
        obtain ⟨harg, hargs⟩ := List.forall_mem_cons.1 hargs
        obtain ⟨hg, -⟩ := hp.sound hs hslot harg hb
        have hargs₁ : ∀ a ∈ args, ready s' a := fun a ha => hp.mono hg.size_le (hargs a ha)
        exact ih hg.closed (hg.forall_lt hslots) hargs₁
          (forall₂_imp_of_mem (fun _ _ _ _ h => h.grows hs hg) hss) (hr.grows hs hg) hw
          (Nat.succ.inj hlen)
      cases hss with
      | cons hslot hss =>
        cases hw with
        | take hw =>
          obtain ⟨hlt, hslots⟩ := List.forall_mem_cons.1 hslots
          exact step hslots hlt hss hr hw
      | nil =>
        cases hw with
        | next harrow hw =>
          obtain ⟨a, hne, ha, htypes⟩ := exists_arrow?_of_shows hs hr harrow (by simp)
          have hlt := Store.lt_of_arrow? hs ha
          cases htypes with
          | cons hfirst htypes =>
            obtain ⟨us, us', hus, hus', heq⟩ := exists_append_of_forall₂_append htypes
            cases hus' with
            | cons hresult hnil =>
              cases hnil
              obtain ⟨rfl, hlast⟩ := List.append_inj' heq rfl
              obtain ⟨rfl, -⟩ := List.cons.inj hlast
              refine ⟨fun hc => absurd hc hne, fun _ => ⟨a, ha, ?_⟩⟩
              exact step (fun i hi => hlt i (by simp [Arrow.types, hi]))
                (hlt _ (by simp [Arrow.types])) hus hresult hw

end Known

/-! ### Typings of themselves -/

variable {n t : Node H}

lemma keepsWalk_of_shows {each : α → Var → Store → Outcome (β × Store)} {ready : Store → α → Prop}
    {var : α → β → Var} {asks : ∀ {D : Type}, Interpretation D → (Var → D) → α → D → Prop}
    {args : List α} {ns : List (Node H)} {v : Var} {s : Store} (hp : Places each ready var asks)
    (hs : s.Closed) (hargs : ∀ a ∈ args, ready s a) (hlen : args.length = ns.length)
    (hv : ∀ f, typeTree? n = some f → s.Shows v f)
    (hw : ∃ f ts t, typeTree? n = some f ∧ ns.map typeTree? = ts.map some ∧ Walks f ts t) :
    KeepsWalk typeTree? each n ns args v s := by
  intro f' ts' hf' hts'
  obtain ⟨f, ts, t, hf, hts, hw⟩ := hw
  obtain rfl := Option.some.inj (hf.symm.trans hf')
  obtain rfl := some_map_injective (hts.symm.trans hts')
  have hlen' : args.length = ts.length := by
    rw [hlen, ← List.length_map typeTree?, hts, List.length_map]
  exact commits_of_shows hp hs (by simp) hargs .nil (hv f hf)
    ((walks_iff_walksFrom SpanRel.joins_any).1 hw) hlen'

lemma Declares.shows {s : Store} {v : Var} {f : Tree} (h : Declares s v n) (hs : s.Closed)
    (hf : typeTree? n = some f) : s.Shows v f := by
  obtain ⟨-, a, ha, hfits⟩ := h
  obtain rfl := Option.some.inj (ha.symm.trans hf)
  exact hfits s.splits_graph hs.knows_self

/-- A node whose types are consistent is as inference supposes. -/
def KeepsSelf (n : Node H) : Prop :=
  ∀ {scope : Params} {types : Scope} {s : Store}, s.Closed → (∀ p ∈ scope, p.2 < s.size) →
    WellTyped typeTree? types n → Keeps typeTree? scope n n s

lemma KeepsSelf.all {scope : Params} {types : Scope} {s : Store} {ns : List (Node H)}
    (hns : ∀ n ∈ ns, KeepsSelf n) (hs : s.Closed) (hscope : ∀ p ∈ scope, p.2 < s.size)
    (hwell : ∀ n ∈ ns, WellTyped typeTree? types n) : KeepsAll typeTree? scope ns ns s := by
  induction ns generalizing s with
  | nil => trivial
  | cons n ns ih =>
    obtain ⟨hn, hns⟩ := List.forall_mem_cons.1 hns
    obtain ⟨hwelln, hwell⟩ := List.forall_mem_cons.1 hwell
    refine ⟨hn hs hscope hwelln, ?_⟩
    intro k s' hk
    obtain ⟨hg, -⟩ := grounded n hs hscope hk
    exact ih hns hg.closed (hg.forall_lt hscope) hwell

lemma keepsSelf (n : Node H) : KeepsSelf n := by
  induction n using Node.formInduction with
  | function head params body span type hhead ih =>
    intro scope types s hs hscope hwell
    obtain ⟨⟨ps, hps, hne, hatoms, f, ts, t, hf, hts, -, hw⟩, hwell⟩ :=
      (wellTyped_function hhead).1 hwell
    rw [keeps_function hhead, hps]
    intro names hnames
    obtain rfl := Option.some.inj (hps.symm.trans (paramNames_eq_ok_iff.1 hnames).1)
    refine ⟨fun own s' hown => ?_, fun f s' hf => ?_⟩
    · obtain ⟨hg, hd⟩ := declares_of_intern (n := ⟨.list [head, params, body], span, type⟩) hs hown
      exact keepsWalk_of_shows places_sketchParam hg.closed (by simp) rfl
        (fun f hf => hd.shows hg.closed hf) ⟨f, ts, t, hf, hts, hw⟩
    · obtain ⟨s₀, -, hg₀, hg₁, -, -, hparams, -⟩ := of_openLambda_eq_ok hs hf
      have hscope₁ := Lambda.scope_lt ps hparams ((hg₀.trans hg₁).forall_lt hscope)
      exact ih hg₁.closed hscope₁ hwell
  | list items span type hitems ih =>
    intro scope types s hs hscope hwell
    obtain ⟨hcall, hwell⟩ := (wellTyped_list hitems).1 hwell
    rw [keeps_list hitems]
    refine ⟨KeepsSelf.all ih hs hscope hwell, ?_⟩
    intro ks s' hks
    obtain ⟨hg, hdecl⟩ := Grounded.all (fun n _ => grounded n) hs hscope hks
    match ks, items, hdecl with
    | [], _, _ | [_], _, _ => trivial
    | callee :: arg :: args, callee' :: arg' :: args', .cons hcallee hargs =>
      intro own s'' hown
      obtain ⟨f, ts, t, hf, hts, -, hw⟩ := hcall _ _ _ rfl
      obtain ⟨_, -, hg', -⟩ := Store.of_intern_eq_ok hg.closed hown
      have hargs_lt : ∀ v ∈ (arg :: args).map Sketch.var, v < s''.size :=
        List.forall_mem_map.2 fun k hk => hg'.lt (var_lt_of_outlines hargs k hk)
      refine keepsWalk_of_shows places_sketchArg hg'.closed hargs_lt ?_
        (fun f hf => (hcallee.own.grows hg').shows hg'.closed hf) ⟨f, ts, t, hf, hts, hw⟩
      rw [List.length_map, hargs.length_eq]
  | atom name span type => exact fun _ _ _ => keeps_leaf (by simp)
  | leaf kind span type hlist hatom => exact fun _ _ _ => keeps_leaf hlist

/-! ### Running inference on its own result -/

/-- A type that is no more than another one, and no less but for spans, and has no fewer spans. -/
lemma Tree.eq_of_fits {t u : Tree} (h : t.Fits (.trees .same) u) (h' : u.Fits (.trees .kept) t) :
    t = u := by
  have span_eq : ∀ {a b : Option Span}, SpanRel.same a b → SpanRel.kept b a → a = b := by
    rintro a b (rfl | rfl) hb
    · cases b with
      | none => rfl
      | some span => cases hb rfl
    · rfl
  induction t using Tree.induction generalizing u with
  | unknown =>
    cases u with
    | unknown => rfl
    | atom name span =>
      obtain ⟨_, -, heq⟩ := h'
      cases heq
    | list items span =>
      obtain ⟨_, -, _, -, heq⟩ := h'
      cases heq
  | atom name span =>
    obtain ⟨span', hspan, rfl⟩ := h
    obtain ⟨span'', hspan', heq⟩ := h'
    obtain ⟨-, rfl⟩ := Tree.atom.inj heq
    rw [span_eq hspan hspan']
  | list items span ih =>
    obtain ⟨us, hus, span', hspan, rfl⟩ := h
    obtain ⟨ts, hts, span'', hspan', heq⟩ := h'
    obtain ⟨rfl, rfl⟩ := Tree.list.inj heq
    rw [Tree.fitsAll_iff_forall₂] at hus hts
    have hitems : List.Forall₂ Eq items us :=
      forall₂_imp₂_of_mem (fun t ht _ h h' => ih t ht h h') hus hts.flip
    rw [List.forall₂_eq_eq_eq] at hitems
    rw [span_eq hspan hspan', hitems]

lemma Alike.and {S T : Node H → Node H → Prop} {n m : Node H} (h : Alike S n m)
    (h' : Alike T n m) : Alike (fun a b => S a b ∧ T a b) n m := by
  induction n using Node.induction generalizing m with
  | list items span type ih =>
    obtain ⟨ms, type', rfl, h, hitems⟩ := h.exists_list
    obtain ⟨ms', type'', heq, h', hitems'⟩ := h'.exists_list
    cases heq
    exact .list ⟨h, h'⟩ (forall₂_imp₂_of_mem (fun n hn _ h h' => ih n hn h h') hitems hitems')
  | leaf kind span type hkind =>
    obtain ⟨type', rfl, hown⟩ := h.exists_leaf hkind
    exact .leaf hkind ⟨hown, h'.own⟩

lemma Alike.trans {S T : Node H → Node H → Prop} {l n m : Node H} (h : Alike S l n)
    (h' : Alike T n m) : Alike (fun a c => ∃ b, S a b ∧ T b c) l m := by
  induction l using Node.induction generalizing n m with
  | list items span type ih =>
    obtain ⟨ns, type', rfl, h, hitems⟩ := h.exists_list
    obtain ⟨ms, type'', rfl, h', hitems'⟩ := h'.exists_list
    refine .list ⟨_, h, h'⟩ (forall₂_trans_of_mem ?_ hitems hitems')
    exact fun l hl _ _ h h' => ih l hl h h'
  | leaf kind span type hkind =>
    obtain ⟨type', rfl, hown⟩ := h.exists_leaf hkind
    obtain ⟨type'', rfl, hown'⟩ := h'.exists_leaf hkind
    exact .leaf hkind ⟨_, hown, hown'⟩

/-- Nodes that are alike and have the same types in the same places are equal. -/
lemma Alike.eq {n m : Node H} (h : Alike (fun a b => a.type? = b.type?) n m) : n = m := by
  induction n using Node.induction generalizing m with
  | list items span type ih =>
    obtain ⟨ms, type', rfl, h, hitems⟩ := h.exists_list
    have heq : List.Forall₂ Eq items ms :=
      forall₂_imp_of_mem (fun n hn _ _ h => ih n hn h) hitems
    rw [List.forall₂_eq_eq_eq] at heq
    subst heq
    obtain rfl : type = type' := h
    rfl
  | leaf kind span type hkind =>
    obtain ⟨type', rfl, hown⟩ := h.exists_leaf hkind
    obtain rfl : type = type' := hown
    rfl

/-- **Idempotence.**  Inference gives back what it has given, with all types and spans. -/
theorem infer_infer (h : infer n = .ok t) : infer t = .ok t := by
  obtain ⟨k, s, -, hs, -, hread⟩ := of_infer_eq_ok h
  have hstored : Alike (fun a b => ∃ u : Tree, a.type? = u.stored? ∧ b.type? = u.stored?) t t := by
    refine hread.alike ?_ hread
    rintro v a b ⟨u, hu, ha⟩ ⟨w, hw, hb⟩
    exact ⟨u, ha, by rw [hu.unique hw, hb]⟩
  -- the result is a typing of itself, with the spans that it has
  have hself : Alike (Declared .same typeTree?) t t := by
    refine hstored.imp ?_
    rintro a b ⟨u, ha, hb⟩
    exact ⟨u, u, typeTree?_of_stored? ha, typeTree?_of_stored? hb, u.fits_self fun _ => .inr rfl⟩
  have hwell : WellTyped typeTree? [] t :=
    (consistent_of_infer keepsArrows_id (fun n => by rw [Option.map_id]; rfl) h).1
  have hkeep : Keeps typeTree? [] t t .empty := keepsSelf t Store.closed_empty (by simp) hwell
  obtain ⟨t', ht', hle⟩ := exists_infer SpanRel.joins_same hself hwell hkeep
  -- what is read off in the second run is no less than what is declared
  obtain ⟨k', s', -, hs', hdecl, hread'⟩ := of_infer_eq_ok ht'
  have hge : Alike (fun a b => ∃ u w : Tree, a.type? = u.stored? ∧ typeTree? b = some w ∧
      w.Fits (.trees .kept) u) t' t := by
    refine hread'.alike ?_ hdecl
    rintro v a b ⟨u, hu, ha⟩ hb
    obtain ⟨w, u', hw, hu', hfits⟩ := hb.fits hs' hs'.knows_self ⟨u, hu, ha⟩
    obtain rfl := Option.some.inj ((typeTree?_of_stored? ha).symm.trans hu')
    exact ⟨u, w, ha, hw, hfits⟩
  have heq : t' = t := by
    refine Alike.eq ((hle.and (hge.trans hstored)).imp ?_)
    rintro a b ⟨⟨u, w, hu, hw, hfits⟩, c, ⟨u', w', ha, hw', hfits'⟩, v, hc, hb⟩
    obtain rfl := Option.some.inj ((typeTree?_of_stored? ha).symm.trans hu)
    obtain rfl := Option.some.inj ((typeTree?_of_stored? hc).symm.trans hw')
    obtain rfl := Option.some.inj ((typeTree?_of_stored? hb).symm.trans hw)
    rw [ha, hb, Tree.eq_of_fits hfits hfits']
  rw [ht', heq]

theorem infer_twoArgumentsTyped :
    infer twoArguments = .ok twoArgumentsTyped ∧
      infer twoArgumentsTyped = .ok twoArgumentsTyped :=
  have h : infer twoArguments = .ok twoArgumentsTyped := by cbv
  ⟨h, infer_infer h⟩

end Typing
end TypedLisp
