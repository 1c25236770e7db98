import TypedLisp.Proofs.Typing.Completeness

/-!
# Least typings

A typing of a node that is as inference supposes makes inference succeed, and what inference gives
is the least of these typings: all others fill it in.  Nothing less would do, since a typing that
fills in what inference gives is as inference supposes.  Other typings there are, and inference may
miss them, depending on the order in which it meets the uses of a name.
-/

namespace TypedLisp
namespace Typing

variable {H : Type} {R S : SpanRel}

/-! ### Filling in -/

namespace Tree

variable {t u : Tree}

lemma Fits.mono (hRS : ∀ {a b}, R a b → S a b) (h : t.Fits (.trees R) u) : t.Fits (.trees S) u := by
  induction t using Tree.induction generalizing u with
  | unknown => trivial
  | atom name span =>
    obtain ⟨span', hspan, hu⟩ := h
    exact ⟨span', hRS hspan, hu⟩
  | list items span ih =>
    obtain ⟨ds, hds, span', hspan, hu⟩ := h
    rw [Tree.fitsAll_iff_forall₂] at hds
    exact ⟨ds, Tree.fitsAll_iff_forall₂.2 (forall₂_imp_of_mem (fun _ ht _ _ h => ih _ ht h) hds),
      span', hRS hspan, hu⟩

lemma refines_atom_iff {name : String} {span : Option Span} :
    (atom name span).Refines u ↔ ∃ span', u = atom name span' :=
  ⟨fun ⟨span', _, hu⟩ => ⟨span', hu⟩, fun ⟨span', hu⟩ => ⟨span', trivial, hu⟩⟩

lemma refines_list_iff {items : List Tree} {span : Option Span} :
    (list items span).Refines u ↔
      ∃ us span', List.Forall₂ Refines items us ∧ u = list us span' := by
  constructor
  · rintro ⟨us, hus, span', -, hu⟩
    exact ⟨us, span', Tree.fitsAll_iff_forall₂.1 hus, hu⟩
  · rintro ⟨us, span', hus, hu⟩
    exact ⟨us, Tree.fitsAll_iff_forall₂.2 hus, span', trivial, hu⟩

/-- The spans of a type that is filled in do not matter. -/
lemma refines_bare_right : t.Refines u.bare ↔ t.Refines u := by
  induction t using Tree.induction generalizing u with
  | unknown => exact ⟨fun _ => trivial, fun _ => trivial⟩
  | atom name span =>
    rw [refines_atom_iff, refines_atom_iff]
    cases u <;> simp
  | list items span ih =>
    rw [refines_list_iff, refines_list_iff]
    cases u with
    | unknown | atom name span' => simp
    | list us span' =>
      have hiff : List.Forall₂ Refines items (us.map bare) ↔ List.Forall₂ Refines items us := by
        rw [List.forall₂_map_right_iff]
        exact ⟨forall₂_imp_of_mem fun t ht _ _ => (ih t ht).1,
          forall₂_imp_of_mem fun t ht _ _ => (ih t ht).2⟩
      simp [hiff]

/-- The spans of a type that fills another one in do not matter. -/
lemma refines_bare_left : t.bare.Refines u ↔ t.Refines u := by
  induction t using Tree.induction generalizing u with
  | unknown => exact ⟨fun _ => trivial, fun _ => trivial⟩
  | atom name span => rw [bare_atom, refines_atom_iff, refines_atom_iff]
  | list items span ih =>
    have hiff : ∀ us, List.Forall₂ Refines (items.map bare) us ↔ List.Forall₂ Refines items us := by
      intro us
      rw [List.forall₂_map_left_iff]
      exact ⟨forall₂_imp_of_mem fun t ht _ _ => (ih t ht).1,
        forall₂_imp_of_mem fun t ht _ _ => (ih t ht).2⟩
    simp only [bare_list, refines_list_iff, hiff]

end Tree

/-! ### Walks of types that are filled in -/

/-- An arrow that is filled in is an arrow of as many types. -/
lemma exists_isArrow_of_refines {t u : Tree} {ts : List Tree}
    (h : (Interpretation.trees .any).IsArrow ts t) (hu : t.Refines u) :
    ∃ us, (Interpretation.trees .any).IsArrow us u ∧ List.Forall₂ Tree.Refines ts us := by
  obtain ⟨headSpan, span, rfl⟩ := (Interpretation.isArrow_trees_iff SpanRel.joins_any).1 h
  obtain ⟨_, span', hus, rfl⟩ := Tree.refines_list_iff.1 hu
  cases hus with
  | cons hhead hus =>
    obtain ⟨headSpan', rfl⟩ := Tree.refines_atom_iff.1 hhead
    exact ⟨_, (Interpretation.isArrow_trees_iff SpanRel.joins_any).2 ⟨_, _, rfl⟩, hus⟩

/-- What a type comes to when it is walked, a type that fills it in comes to as well, if it can be
walked along as many arguments. -/
lemma awaits_of_refines {slots slots' before after ts' : List Tree} {r r' g t t' : Tree}
    (hw : (Interpretation.trees .any).WalksFrom slots r before g)
    (hg : (Interpretation.trees .any).IsArrow (after ++ [t]) g) (hafter : after ≠ [])
    (hslots : List.Forall₂ Tree.Refines slots slots') (hr : r.Refines r')
    (hw' : (Interpretation.trees .any).WalksFrom slots' r' ts' t')
    (hlen : ts'.length = before.length + after.length) :
    (Interpretation.trees .any).Awaits slots' r' ts' after.length := by
  have hpos : 0 < after.length := List.length_pos_iff.2 hafter
  induction hw generalizing slots' r' ts' with
  | done r =>
    -- the type that fills in an arrow of all arguments that are left is one too, so that the other
    -- walk takes them all in one step
    cases hslots
    obtain ⟨us, hus, hrefines⟩ := exists_isArrow_of_refines hg hr
    have husLen := hrefines.length_eq
    rw [List.length_append] at husLen
    cases hw' with
    | done => exact absurd hlen (by simpa using Nat.ne_of_lt hpos)
    | partway hne => exact absurd rfl hne
    | @next slot slots args _ r'' _ h rest =>
      rw [Interpretation.isArrow_trees_unique hus h, List.length_append] at husLen
      have hlen' : after.length = args.length + 1 := by simpa using hlen.symm
      obtain ⟨rfl, -⟩ := rest.eq_of_length (by simp at husLen; omega)
      rw [hlen']
      exact .here (by simp) h
  | partway hne ht =>
    -- what is left of the arrow is just what the arguments are held against
    obtain ⟨rfl, -⟩ := List.append_inj' (Interpretation.isArrow_trees_unique hg ht) rfl
    have hlen' : slots'.length = ts'.length := by
      rw [hlen, ← hslots.length_eq]
      simp
    obtain ⟨rfl, rfl⟩ := hw'.eq_of_length hlen'
    have harrow : (Interpretation.trees .any).IsArrow (ts' ++ [t'])
        (.list (.atom Node.arrowName none :: (ts' ++ [t'])) none) :=
      (Interpretation.isArrow_trees_iff SpanRel.joins_any).2 ⟨_, _, rfl⟩
    have hne' : ts' ≠ [] := by
      rintro rfl
      cases hslots
      exact hne rfl
    exact ⟨[], ts', _, t', rfl, hslots.length_eq.symm, hne', .partway hne' harrow, harrow⟩
  | take rest ih =>
    cases hslots with
    | cons hslot hslots =>
      cases hw' with
      | partway => exact absurd hlen (by simp; omega)
      | take rest' => exact .take (ih hg hslots hr rest' (by simp at hlen; omega))
  | next harrow rest ih =>
    cases hslots
    obtain ⟨us, hus, hrefines⟩ := exists_isArrow_of_refines harrow hr
    obtain ⟨us₁, us₂, hus₁, hus₂, rfl⟩ := exists_append_of_forall₂_append hrefines
    cases hus₁ with
    | cons hslot hslots =>
      cases hus₂ with
      | cons hres hnil =>
        cases hnil
        cases ts' with
        | nil => exact absurd hlen (by simp; omega)
        | cons arg args =>
          obtain ⟨rfl, rest'⟩ := hw'.of_next hus
          exact .next hus (ih hg hslots hres rest' (by simp at hlen; omega))

/-- If a type comes to an arrow of the arguments that are left, so does a type that fills it in. -/
lemma Awaits.refines {f f' t' : Tree} {ts ts' : List Tree} {left : Nat} (h : Awaits f ts left)
    (hf : f.Refines f') (hlen : ts.length = ts'.length) (hw : Walks f' ts' t') :
    Awaits f' ts' left := by
  obtain ⟨before, after, g, t, rfl, rfl, hafter, hwalk, hg⟩ := (awaits_iff SpanRel.joins_any).1 h
  exact (awaits_iff SpanRel.joins_any).2 (awaits_of_refines hwalk hg hafter .nil hf
    ((walks_iff_walksFrom SpanRel.joins_any).1 hw) (by rw [← hlen, List.length_append]))

/-! ### Typings that fill in others -/

lemma Fills.form {n m : Node H} (h : Fills n m) :
    ∃ a t, form? n = some a ∧ form? m = some t ∧ a.Refines t := by
  obtain ⟨a, t, ha, ht, hat⟩ := Alike.own h
  refine ⟨a.bare, t.bare, by rw [form?, ha]; rfl, by rw [form?, ht]; rfl, ?_⟩
  rwa [Tree.refines_bare_left, Tree.refines_bare_right]

lemma exists_forms {ns ms : List (Node H)} (h : List.Forall₂ Fills ns ms) :
    ∃ us : List Tree, ns.map form? = us.map some := by
  induction h with
  | nil => exact ⟨[], rfl⟩
  | cons hn _ ih =>
    obtain ⟨u, -, hu, -⟩ := hn.form
    obtain ⟨us, hus⟩ := ih
    exact ⟨u :: us, by rw [List.map_cons, List.map_cons, hu, hus]⟩

lemma KeepsWalk.fills {α β : Type} {each : α → Var → Store → Outcome (β × Store)} {n m : Node H}
    {ns ms : List (Node H)} {args : List α} {v : Var} {s : Store}
    (h : KeepsWalk form? each n ns args v s) (hn : Fills n m) (hns : List.Forall₂ Fills ns ms)
    (hm : ∃ f ts t, form? m = some f ∧ ms.map form? = ts.map some ∧ Walks f ts t) :
    KeepsWalk form? each m ms args v s := by
  intro f' ts' hf' hts'
  obtain ⟨f, ts, t, hf, hts, hw⟩ := hm
  obtain rfl := Option.some.inj (hf.symm.trans hf')
  obtain rfl := some_map_injective (hts.symm.trans hts')
  obtain ⟨g, d, hg, hd, hgd⟩ := hn.form
  obtain rfl := Option.some.inj (hd.symm.trans hf)
  obtain ⟨us, hus⟩ := exists_forms hns
  have hlen : us.length = ts.length := by
    have hl := congrArg List.length hus
    have hr := congrArg List.length hts
    rw [List.length_map, List.length_map] at hl hr
    rw [← hl, ← hr, hns.length_eq]
  exact (h g us hg hus).imp fun k hk => hk.refines hgd hlen hw

/-- A typing that fills in one that is as inference supposes is as inference supposes. -/
def KeepsFilled (n : Node H) : Prop :=
  ∀ {scope : Params} {types : Scope} {s : Store} {t m : Node H}, Alike (fun _ _ => True) n t →
    Fills t m → WellTyped form? types m → Keeps form? scope n t s → Keeps form? scope n m s

lemma KeepsFilled.all {scope : Params} {types : Scope} {s : Store} {ns ts ms : List (Node H)}
    (hns : ∀ n ∈ ns, KeepsFilled n) (hts : List.Forall₂ (Alike fun _ _ => True) ns ts)
    (hms : List.Forall₂ Fills ts ms) (hwell : ∀ m ∈ ms, WellTyped form? types m)
    (h : KeepsAll form? scope ns ts s) : KeepsAll form? scope ns ms s := by
  induction ns generalizing s ts ms with
  | nil => trivial
  | cons n ns ih =>
    cases hts with
    | cons ht hts =>
      cases hms with
      | cons hm hms =>
        obtain ⟨hn, hns⟩ := List.forall_mem_cons.1 hns
        obtain ⟨hwellm, hwell⟩ := List.forall_mem_cons.1 hwell
        refine ⟨hn ht hm hwellm h.1, ?_⟩
        intro k s' hk
        exact ih hns hts hms hwell (h.2 k s' hk)

lemma keepsFilled (n : Node H) : KeepsFilled n := by
  induction n using Node.formInduction with
  | function head params body span type hhead ih =>
    intro scope types s t m ht hm hwell h
    obtain ⟨head', params', body', type', rfl, -, hhead', hparams, hbody⟩ := ht.exists_triple
    obtain ⟨head'', params'', body'', type'', rfl, -, hhead'', hparams', hbody'⟩ := hm.exists_triple
    obtain ⟨⟨ps, hps, hne, hatoms, hwalk⟩, hwell⟩ :=
      (wellTyped_function (hhead''.isAtom (hhead'.isAtom hhead))).1 hwell
    rw [keeps_function hhead] at h ⊢
    intro names hnames
    obtain ⟨hf, hb⟩ := h names hnames
    refine ⟨fun own s' hown' => ?_, fun f s' hf' => ?_⟩
    · obtain ⟨f, us, t, hf', hus, -, hw⟩ := hwalk
      exact (hf own s' hown').fills hm hparams'.forall₂_items
        ⟨f, us, t, hf', by rw [hps]; exact hus, hw⟩
    · exact ih hbody hbody' hwell (hb f s' hf')
  | list items span type hitems ih =>
    intro scope types s t m ht hm hwell h
    obtain ⟨ts, type', rfl, -, hts⟩ := ht.exists_list
    obtain ⟨ms, type'', rfl, -, hms⟩ := hm.exists_list
    have hms' : ¬ IsFunction ms := fun hf =>
      hitems (isFunction_of_alike hts (isFunction_of_alike hms hf))
    obtain ⟨hcall, hwell⟩ := (wellTyped_list hms').1 hwell
    rw [keeps_list hitems] at h ⊢
    refine ⟨KeepsFilled.all ih hts hms hwell h.1, ?_⟩
    intro ks s' hks
    have hform := h.2 ks s' hks
    match ks, hms with
    | [], _ | [_], _ | _ :: _ :: _, .nil | _ :: _ :: _, .cons _ .nil => trivial
    | callee :: arg :: args, .cons hcallee (.cons harg hargs) =>
      intro own s'' hown'
      obtain ⟨f, us, t, hf, hus, -, hw⟩ := hcall _ _ _ rfl
      exact (hform own s'' hown').fills hcallee (.cons harg hargs) ⟨f, us, t, hf, hus, hw⟩
  | atom name span type => exact fun _ _ _ _ => keeps_leaf (by simp)
  | leaf kind span type hlist hatom => exact fun _ _ _ _ => keeps_leaf hlist

/-! ### The least typing -/

lemma declared_of_fills {n m : Node H} (h : Fills n m) : Alike (Declared .any form?) n m := by
  refine h.imp ?_
  rintro a b ⟨u, t, hu, ht, hut⟩
  exact ⟨u, t.bare, hu, by rw [form?, ht]; rfl, Tree.refines_bare_right.2 hut⟩

lemma fills_of_declared {n m : Node H} (h : Alike (Declared .any form?) n m) : Fills n m := by
  refine h.imp ?_
  rintro a b ⟨u, _, hu, hb, hut⟩
  obtain ⟨t, ht, rfl⟩ := Option.map_eq_some_iff.1 hb
  exact ⟨u, t, hu, ht, Tree.refines_bare_right.1 hut⟩

/-- What inference gives is a typing. -/
theorem isTyping_of_infer {n t : Node H} (h : infer n = .ok t) : IsTyping n t := by
  obtain ⟨k, s, -, hs, hn, ht⟩ := of_infer_eq_ok h
  refine ⟨hn.alike ?_ ht, (consistent_of_infer keepsArrows_bare (fun _ => rfl) h).1⟩
  intro v a b ha hb
  obtain ⟨u, t, hu, ht, hfits⟩ := ha.fits hs hs.knows_self hb
  exact ⟨u, t, hu, ht, hfits.mono fun _ => trivial⟩

/-- **Completeness and principality.**  Of the typings of a node, those that are as inference
supposes are just those that fill in what inference gives, which is one of them. -/
theorem keeps_iff_infer {n m : Node H} (hm : IsTyping n m) :
    Keeps form? [] n m .empty ↔ ∃ t, infer n = .ok t ∧ IsTyping n t ∧ Fills t m := by
  constructor
  · intro hkeep
    obtain ⟨t, ht, htm⟩ := exists_infer SpanRel.joins_any (declared_of_fills hm.1) hm.2 hkeep
    exact ⟨t, ht, isTyping_of_infer ht, fills_of_declared htm⟩
  · rintro ⟨t, ht, htyping, htm⟩
    have hkeep := (consistent_of_infer keepsArrows_bare (fun _ => rfl) ht).2
    exact keepsFilled n (htyping.1.imp fun _ _ _ => trivial) htm hm.2 hkeep

theorem exists_infer_twoArguments :
    IsTyping twoArguments twoArgumentsTyped ∧
      ∃ t, infer twoArguments = .ok t ∧ IsTyping twoArguments t ∧ Fills t twoArgumentsTyped := by
  have h : infer twoArguments = .ok twoArgumentsTyped := by cbv
  have hkeep := (consistent_of_infer keepsArrows_bare (fun _ => rfl) h).2
  exact ⟨isTyping_of_infer h, (keeps_iff_infer (isTyping_of_infer h)).1 hkeep⟩

/-! ### Typings that inference misses -/

/-- The name `f` as a function `(-> a (-> b r))`. -/
def curried : Node Empty :=
  (Node.atom "f" none).withType
    (.list [.atom "->" none, .atom "a" none,
      .list [.atom "->" none, .atom "b" none, .atom "r" none] none] none)

/-- The call `(f x y)`, of which nothing is declared. -/
def flatCall : Node Empty := .list [.atom "f" none, .atom "x" none, .atom "y" none] none

/-- The call `(f x y)` with the types that follow. -/
def flatCallTyped : Node Empty :=
  .list [(Node.atom "f" none).withType (.list [.atom "->" none, .null, .null, .null] none),
    .atom "x" none, .atom "y" none] none

/-- The call `(f x y)` of the function `curried`. -/
def curriedCall : Node Empty :=
  (Node.list [curried, (Node.atom "x" none).withType (.atom "a" none),
    (Node.atom "y" none).withType (.atom "b" none)] none).withType (.atom "r" none)

/-- The function `(lambda (f) (k u v))`. -/
def usesOf (u v : Node Empty) : Node Empty :=
  .list [.atom "lambda" none, .list [.atom "f" none] none, .list [.atom "k" none, u, v] none] none

/-- The function `(lambda (f) (k (f x y) f))` with the types that follow from the last `f`. -/
def curriedUses : Node Empty :=
  let k := (Node.atom "k" none).withType
    (.list [.atom "->" none, .atom "r" none, curried.type, .null] none)
  (Node.list [.atom "lambda" none, .list [curried] none, .list [k, curriedCall, curried] none]
    none).withType (.list [.atom "->" none, curried.type, .null] none)

/-- A name that is called before it is declared is taken to be an arrow of as many arguments as the
call has.  So there is a typing of a node that inference rejects, while it takes the same uses in
the other order; and where it succeeds there may be typings that do not fill in what it gives. -/
theorem exists_isTyping_and_not_infer :
    (∃ m, IsTyping (usesOf flatCall curried) m) ∧ (∀ t, infer (usesOf flatCall curried) ≠ .ok t) ∧
      (∃ t, infer (usesOf curried flatCall) = .ok t) ∧
      ∃ t m, infer flatCall = .ok t ∧ IsTyping flatCall m ∧ ¬ Fills t m := by
  have hcall : Fills flatCall curriedCall :=
    .list ⟨_, _, rfl, rfl, trivial⟩
      (.cons (.leaf (fun _ => nofun) ⟨_, _, rfl, rfl, trivial⟩)
        (.cons (.leaf (fun _ => nofun) ⟨_, _, rfl, rfl, trivial⟩)
          (.cons (.leaf (fun _ => nofun) ⟨_, _, rfl, rfl, trivial⟩) .nil)))
  have huses : Fills (usesOf flatCall curried) curriedUses :=
    .list ⟨_, _, rfl, rfl, trivial⟩
      (.cons (.leaf (fun _ => nofun) ⟨_, _, rfl, rfl, trivial⟩)
        (.cons (.list ⟨_, _, rfl, rfl, trivial⟩
            (.cons (.leaf (fun _ => nofun) ⟨_, _, rfl, rfl, trivial⟩) .nil))
          (.cons (.list ⟨_, _, rfl, rfl, trivial⟩
            (.cons (.leaf (fun _ => nofun) ⟨_, _, rfl, rfl, trivial⟩)
              (.cons hcall
                (.cons (.leaf (fun _ => nofun) ⟨_, _, rfl, rfl, Tree.fits_self _ fun _ => trivial⟩)
                  .nil)))) .nil)))
  have hwell {t : Node Empty} (h : infer t = .ok t) : WellTyped form? [] t :=
    (consistent_of_infer keepsArrows_bare (fun _ => rfl) h).1
  refine ⟨⟨curriedUses, huses, hwell (by cbv)⟩, ?_, ⟨_, by cbv⟩,
    flatCallTyped, curriedCall, by cbv, ⟨hcall, hwell (by cbv)⟩, ?_⟩
  · obtain ⟨e, he⟩ : ∃ e, infer (usesOf flatCall curried) = .error e := ⟨_, by cbv⟩
    simp [he]
  · intro h
    cases h.forall₂_items with
    | cons hf _ =>
      -- an arrow of two arguments is no list of as many types as an arrow of one
      obtain ⟨a, t, ha, ht, hat⟩ := hf.own
      obtain rfl := Option.some.inj ha
      obtain rfl := Option.some.inj ht
      obtain ⟨us, _, hus, heq⟩ := Tree.refines_list_iff.1 hat
      obtain rfl := (Tree.list.inj heq).1
      exact absurd hus.length_eq (by decide)

end Typing
end TypedLisp
