import TypedLisp.Proofs.Typing.Walk

/-!
# Walks of inference

A walk of inference does something for each argument and its place in the arrow at hand, and makes
up an arrow where it comes upon an unknown.  `of_walk_eq_ok` says that a walk that succeeds is a
walk in every model of the result.  `exists_walk` says that a walk succeeds if a model in trees has
such a walk, and has arrows of the right lengths where inference has to make them up.
-/

namespace TypedLisp
namespace Typing

variable {D : Type} {I : Interpretation D} {R : SpanRel}

/-! ### What is done for an argument -/

variable {α β : Type}

/-- Whatever is done for an argument of a walk, it gives the argument a variable, of which it may
ask something, and makes that equal to the place of the argument in the arrow. -/
structure Places (each : α → Var → Store → Outcome (β × Store)) (ready : Store → α → Prop)
    (var : α → β → Var)
    (asks : ∀ {D : Type}, Interpretation D → (Var → D) → α → D → Prop) : Prop where
  mono : ∀ {s s' : Store} {arg : α}, s.size ≤ s'.size → ready s arg → ready s' arg
  congr : ∀ {D : Type} {I : Interpretation D} {ρ ρ' : Var → D} {s : Store} {arg : α} {d : D},
    ready s arg → s.Agree ρ ρ' → asks I ρ arg d → asks I ρ' arg d
  sound : ∀ {s s' : Store} {arg : α} {slot : Var} {b : β}, s.Closed → slot < s.size →
    ready s arg → each arg slot s = .ok (b, s') → s.Grows s' ∧ var arg b < s'.size ∧
      ∀ {D : Type} {I : Interpretation D} {ρ : Var → D}, I.Splits → s'.Models I ρ →
        ρ (var arg b) = ρ slot ∧ asks I ρ arg (ρ slot)
  complete : ∀ {R : SpanRel} {θ : Var → Tree} {s : Store} {arg : α} {slot : Var}, R.Joins →
    s.Closed → slot < s.size → ready s arg → s.Models (.trees R) θ →
    asks (.trees R) θ arg (θ slot) → ∃ b s' θ', each arg slot s = .ok (b, s') ∧ s.Agree θ θ' ∧
      s'.Models (.trees R) θ' ∧ θ' (var arg b) = θ slot

/-- What a parameter asks of its type: to be as it is declared. -/
def ParamAsks {H : Type} {D : Type} (I : Interpretation D) (_ρ : Var → D) (param : Node H)
    (d : D) : Prop :=
  ∃ t, typeTree? param = some t ∧ t.Fits I d

lemma places_sketchParam {H : Type} :
    Places (sketchParam (H := H)) (fun _ _ => True) (fun _ v => v) ParamAsks where
  mono _ h := h
  congr _ _ h := h
  sound := by
    intro s s' param slot v hs hslot _ h
    obtain ⟨⟨v', s₁⟩, hv, h⟩ := Except.exists_of_bind_eq_ok h
    obtain ⟨s₂, hu, h⟩ := Except.exists_of_bind_eq_ok h
    obtain ⟨rfl, rfl⟩ := Prod.mk.inj (Except.ok.inj h)
    obtain ⟨t, ht, hg, hlt, hfits⟩ := Store.of_intern_eq_ok hs hv
    have hgu := Store.grows_unify hg.closed hlt (hg.lt hslot) hu
    refine ⟨hg.trans hgu, hgu.lt hlt, fun hI hm => ?_⟩
    obtain ⟨hm₁, heq⟩ := (Store.of_unify_eq_ok hg.closed hlt (hg.lt hslot) hu).2.2 hI hm
    exact ⟨heq, t, ht, heq ▸ hfits hI hm₁⟩
  complete := by
    rintro R θ s param slot hR hs hslot _ hm ⟨t, ht, hfits⟩
    obtain ⟨v, s₁, θ₁, hv, hag, hm₁, heq⟩ := Store.exists_intern hs ht hm hfits
    obtain ⟨-, -, hg, hlt, -⟩ := Store.of_intern_eq_ok hs hv
    obtain ⟨s₂, hu, hm₂⟩ := Store.exists_unify hR hg.closed hlt (hg.lt hslot) hm₁
      (heq.trans (hag slot hslot))
    refine ⟨v, s₂, θ₁, ?_, hag, hm₂, heq⟩
    simp only [sketchParam, hv, hu, bind, Except.bind, pure, Except.pure]

/-- What an argument asks of its type: to be the type that it has. -/
def ArgAsks {D : Type} (_I : Interpretation D) (ρ : Var → D) (arg : Var) (d : D) : Prop :=
  ρ arg = d

lemma places_sketchArg :
    Places sketchArg (fun s arg => arg < s.size) (fun arg _ => arg) ArgAsks where
  mono hle h := Nat.lt_of_lt_of_le h hle
  congr hlt hag h := (hag _ hlt).symm.trans h
  sound := by
    intro s s' arg slot _ hs hslot harg h
    obtain ⟨s₁, hu, h⟩ := Except.exists_of_bind_eq_ok h
    obtain ⟨-, rfl⟩ := Prod.mk.inj (Except.ok.inj h)
    have hgu := Store.grows_unify hs hslot harg hu
    refine ⟨hgu, hgu.lt harg, fun hI hm => ?_⟩
    obtain ⟨-, heq⟩ := (Store.of_unify_eq_ok hs hslot harg hu).2.2 hI hm
    exact ⟨heq.symm, heq.symm⟩
  complete := by
    intro R θ s arg slot hR hs hslot harg hm hask
    obtain ⟨s₁, hu, hm₁⟩ := Store.exists_unify hR hs hslot harg hm hask.symm
    refine ⟨(), s₁, θ, ?_, .refl s θ, hm₁, hask⟩
    simp only [sketchArg, hu, bind, Except.bind, pure, Except.pure]

/-! ### Walks of inference -/

section Inference

variable {each : α → Var → Store → Outcome (β × Store)} {ready : Store → α → Prop}
  {var : α → β → Var} {asks : ∀ {D : Type}, Interpretation D → (Var → D) → α → D → Prop}
  {notArrow : Node Empty → Error} {args : List α} {slots : List Var} {result v : Var}
  {s s' : Store} {bs : List β}

lemma Commits.imp {P Q : Nat → Prop} (hPQ : ∀ k, P k → Q k)
    (h : Commits each P args slots result s) : Commits each Q args slots result s := by
  induction args generalizing slots result s with
  | nil => trivial
  | cons arg args ih =>
    cases slots with
    | cons slot slots => exact fun b s' hb => ih (h b s' hb)
    | nil =>
      refine ⟨fun hc => hPQ _ (h.1 hc), ?_⟩
      intro hc
      obtain ⟨a, ha, hrest⟩ := h.2 hc
      exact ⟨a, ha, fun b s' hb => ih (hrest b s' hb)⟩

/-- A walk has no more arguments left than it started with. -/
lemma Commits.le {P : Nat → Prop} (h : Commits each P args slots result s) :
    Commits each (fun k => k ≤ args.length ∧ P k) args slots result s := by
  induction args generalizing slots result s with
  | nil => trivial
  | cons arg args ih =>
    have hle : ∀ k, k ≤ args.length ∧ P k → k ≤ args.length + 1 ∧ P k :=
      fun k hk => ⟨Nat.le_succ_of_le hk.1, hk.2⟩
    cases slots with
    | cons slot slots => exact fun b s' hb => (ih (h b s' hb)).imp hle
    | nil =>
      refine ⟨fun hc => ⟨Nat.le_refl _, h.1 hc⟩, ?_⟩
      intro hc
      obtain ⟨a, ha, hrest⟩ := h.2 hc
      exact ⟨a, ha, fun b s' hb => (ih (hrest b s' hb)).imp hle⟩

/-- An arrow that asks for all arguments is all that the walk comes upon. -/
lemma commits_of_length_le {P : Nat → Prop} (h : args.length ≤ slots.length) :
    Commits each P args slots result s := by
  induction args generalizing slots result s with
  | nil => trivial
  | cons arg args ih =>
    cases slots with
    | nil => exact absurd h (by simp)
    | cons slot slots => exact fun _ _ _ => ih (Nat.le_of_succ_le_succ h)

/-- What a walk of inference has led to: it is a walk in every model of the result, in which all
arguments have what they ask for; and where it has made up an arrow, the walk in the model comes
to an arrow of as many arguments.  The variables of the arguments are `us`. -/
structure WalksTo (each : α → Var → Store → Outcome (β × Store))
    (asks : ∀ {D : Type}, Interpretation D → (Var → D) → α → D → Prop) (args : List α)
    (slots : List Var) (result : Var) (s : Store) (us : List Var) (v : Var) (s' : Store) :
    Prop where
  grows : s.Grows s'
  lt : v < s'.size
  args_lt : ∀ u ∈ us, u < s'.size
  walks : ∀ {D : Type} {I : Interpretation D} {ρ : Var → D}, I.Splits → s'.Models I ρ →
    I.WalksFrom (slots.map ρ) (ρ result) (us.map ρ) (ρ v)
  asks : ∀ {D : Type} {I : Interpretation D} {ρ : Var → D}, I.Splits → s'.Models I ρ →
    List.Forall₂ (asks I ρ) args (us.map ρ)
  commits : ∀ {D : Type} {I : Interpretation D} {ρ : Var → D}, I.Splits → s'.Models I ρ →
    Commits each (I.Awaits (slots.map ρ) (ρ result) (us.map ρ)) args slots result s

namespace WalksTo

variable {arg : α} {slot : Var} {b : β} {s₁ : Store} {us : List Var} {a : Arrow}

lemma take (hp : Places each ready var asks) (hs : s.Closed) (hslot : slot < s.size)
    (harg : ready s arg) (hb : each arg slot s = .ok (b, s₁))
    (h : WalksTo each asks args slots result s₁ us v s') :
    WalksTo each asks (arg :: args) (slot :: slots) result s (var arg b :: us) v s' := by
  obtain ⟨hg, hu, hplace⟩ := hp.sound hs hslot harg hb
  refine ⟨hg.trans h.grows, h.lt, fun u hmem => ?_, fun hI hm => ?_, fun hI hm => ?_,
    fun hI hm b' s'' hb' => ?_⟩
  · rcases List.mem_cons.1 hmem with rfl | hmem
    · exact h.grows.lt hu
    · exact h.args_lt u hmem
  · have heq := (hplace hI (h.grows.models hI hm)).1
    rw [List.map_cons, List.map_cons, heq]
    exact .take (h.walks hI hm)
  · obtain ⟨heq, hask⟩ := hplace hI (h.grows.models hI hm)
    rw [List.map_cons, heq]
    exact .cons hask (h.asks hI hm)
  · obtain ⟨rfl, rfl⟩ := Except.eq_of_eq_ok hb' hb
    have heq := (hplace hI (h.grows.models hI hm)).1
    rw [List.map_cons, List.map_cons, heq]
    exact (h.commits hI hm).imp fun k hk => hk.take

lemma next (hs : s.Closed) (hres : result < s.size)
    (ha : s.expectArrow result (args.length + 1) = .ok (some a, s₁))
    (h : WalksTo each asks (arg :: args) (a.first :: a.rest) a.result s₁ us v s') :
    WalksTo each asks (arg :: args) [] result s us v s' := by
  obtain ⟨hg, harrow, hopen, hknown⟩ := Store.of_expectArrow_eq_ok hs hres ha
  -- in every model, the result of the arrow before is this arrow, which takes the next argument
  have hnext : ∀ {D : Type} {I : Interpretation D} {ρ : Var → D}, I.Splits → s'.Models I ρ →
      I.IsArrow (ρ a.first :: a.rest.map ρ ++ [ρ a.result]) (ρ result) ∧
        ∃ ds, us.map ρ = ρ a.first :: ds ∧ ds.length = args.length ∧
          I.WalksFrom (a.rest.map ρ) (ρ a.result) ds (ρ v) := by
    intro D I ρ hI hm
    have harrow := Store.isArrow_of_arrow? harrow hI (h.grows.models hI hm)
    rw [Arrow.types, List.map_append, List.map_cons] at harrow
    have hw := h.walks hI hm
    have hasks := h.asks hI hm
    rw [List.map_cons] at hw
    generalize us.map ρ = ds at hw hasks
    cases hw with
    | partway => cases hasks
    | take hw =>
      obtain ⟨-, hasks⟩ := List.forall₂_cons.1 hasks
      exact ⟨harrow, _, rfl, hasks.length_eq.symm, hw⟩
  refine ⟨hg.trans h.grows, h.lt, h.args_lt, fun hI hm => ?_, h.asks,
    fun {D I ρ} hI hm => ⟨fun hc => ?_, fun hc => ?_⟩⟩
  · obtain ⟨harrow, ds, hus, -, hw⟩ := hnext hI hm
    rw [hus]
    exact .next harrow hw
  · -- the arrow that was made up takes all arguments that are left
    obtain ⟨harrow, ds, hus, hlen, hw⟩ := hnext hI hm
    have hrest : (a.rest.map ρ).length = ds.length := by
      rw [List.length_map, hlen]
      exact Nat.succ.inj (hopen hc)
    obtain ⟨rfl, -⟩ := hw.eq_of_length hrest
    have hhere : I.Awaits [] (ρ result) (ρ a.first :: a.rest.map ρ) _ := .here (by simp) harrow
    rwa [hus, ← hlen]
  · -- the arrow was there before
    obtain ⟨harrow', ds, hus, hlen, -⟩ := hnext hI hm
    obtain rfl := hknown hc
    refine ⟨a, harrow, fun b s'' hb => (h.commits hI hm b s'' hb).le.imp ?_⟩
    intro k hk
    rw [hus]
    rw [hus] at hk
    exact (hk.2.of_take (by rw [hlen]; exact hk.1)).next harrow'

end WalksTo

lemma of_walk_cons_eq_ok {arg : α} {slot : Var}
    (h : walk each notArrow (arg :: args) (slot :: slots) result s = .ok ((bs, v), s')) :
    ∃ b bs' s₁, bs = b :: bs' ∧ each arg slot s = .ok (b, s₁) ∧
      walk each notArrow args slots result s₁ = .ok ((bs', v), s') := by
  obtain ⟨⟨b, s₁⟩, hb, h⟩ := Except.exists_of_bind_eq_ok h
  obtain ⟨⟨⟨bs', v'⟩, s₂⟩, hrest, h⟩ := Except.exists_of_bind_eq_ok h
  obtain ⟨hbv, rfl⟩ := Prod.mk.inj (Except.ok.inj h)
  obtain ⟨rfl, rfl⟩ := Prod.mk.inj hbv
  exact ⟨b, bs', s₁, rfl, hb, hrest⟩

lemma of_walk_nil_eq_ok {arg : α}
    (h : walk each notArrow (arg :: args) [] result s = .ok ((bs, v), s')) :
    ∃ a s₁, s.expectArrow result (args.length + 1) = .ok (some a, s₁) ∧
      walk each notArrow (arg :: args) (a.first :: a.rest) a.result s₁ = .ok ((bs, v), s') := by
  obtain ⟨⟨a?, s₁⟩, ha, h⟩ := Except.exists_of_bind_eq_ok h
  cases a? with
  | none =>
    obtain ⟨t, -, h⟩ := Except.exists_of_bind_eq_ok h
    cases h
  | some a => exact ⟨a, s₁, ha, h⟩

/-- A walk of inference that succeeds is a walk in every model of the result. -/
theorem of_walk_eq_ok (hp : Places each ready var asks) (hs : s.Closed)
    (hslots : ∀ i ∈ slots, i < s.size) (hres : result < s.size) (hargs : ∀ a ∈ args, ready s a)
    (h : walk each notArrow args slots result s = .ok ((bs, v), s')) :
    bs.length = args.length ∧
      WalksTo each asks args slots result s (List.zipWith var args bs) v s' := by
  induction args generalizing slots result s bs with
  | nil =>
    cases slots with
    | nil =>
      -- the walk ends between two arrows, with the result of the one before
      obtain ⟨hbv, rfl⟩ := Prod.mk.inj (Except.ok.inj h)
      obtain ⟨rfl, rfl⟩ := Prod.mk.inj hbv
      exact ⟨rfl, .refl hs, hres, by simp, fun _ _ => .done _, fun _ _ => .nil, fun _ _ => trivial⟩
    | cons slot slots =>
      -- it ends within an arrow, and a new one is made of what is left
      obtain ⟨hbv, rfl⟩ := Prod.mk.inj (Except.ok.inj h)
      obtain ⟨rfl, rfl⟩ := Prod.mk.inj hbv
      have hlt : ∀ i ∈ slot :: slots ++ [result], i < s.size := by
        simpa [or_imp, forall_and, hres] using hslots
      obtain ⟨hg, hv⟩ := Store.grows_pushArrow hs hlt
      refine ⟨rfl, hg, hv, by simp, fun _ hm => .partway (by simp) ?_, fun _ _ => .nil,
        fun _ _ => trivial⟩
      have harrow := Store.isArrow_pushArrow hs hm
      rwa [List.map_append] at harrow
  | cons arg args ih =>
    -- a step along the arrow at hand, whether it was there from the start or comes next
    have take : ∀ {slot slots result s}, s.Closed → (∀ i ∈ slot :: slots, i < s.size) →
        result < s.size → (∀ a ∈ arg :: args, ready s a) →
        walk each notArrow (arg :: args) (slot :: slots) result s = .ok ((bs, v), s') →
        bs.length = args.length + 1 ∧ WalksTo each asks (arg :: args) (slot :: slots) result s
          (List.zipWith var (arg :: args) bs) v s' := by
      intro slot slots result s hs hslots hres hargs h
      obtain ⟨b, bs, s₁, rfl, hb, hrest⟩ := of_walk_cons_eq_ok h
      obtain ⟨hslot, hslots⟩ := List.forall_mem_cons.1 hslots
      obtain ⟨harg, hargs⟩ := List.forall_mem_cons.1 hargs
      obtain ⟨hg, -⟩ := hp.sound hs hslot harg hb
      have hargs₁ : ∀ a ∈ args, ready s₁ a := fun a ha => hp.mono hg.size_le (hargs a ha)
      obtain ⟨hlen, hw⟩ := ih hg.closed (hg.forall_lt hslots) (hg.lt hres) hargs₁ hrest
      exact ⟨congrArg Nat.succ hlen, hw.take hp hs hslot harg hb⟩
    cases slots with
    | cons slot slots => exact take hs hslots hres hargs h
    | nil =>
      obtain ⟨a, s₁, ha, h⟩ := of_walk_nil_eq_ok h
      obtain ⟨hg, hslots, hres'⟩ := Store.lt_of_expectArrow_eq_ok hs hres ha
      obtain ⟨hlen, hw⟩ := take hg.closed hslots hres'
        (fun a ha => hp.mono hg.size_le (hargs a ha)) h
      exact ⟨hlen, hw.next hs hres ha⟩

/-- A walk of inference can be taken: a model in trees has such a walk with arguments that are what
the arguments ask for, and it has an arrow of just the arguments that are left wherever inference
makes one up. -/
structure CanWalk (each : α → Var → Store → Outcome (β × Store)) (ready : Store → α → Prop)
    (asks : ∀ {D : Type}, Interpretation D → (Var → D) → α → D → Prop) (R : SpanRel)
    (args : List α) (slots : List Var) (result : Var) (s : Store) (θ : Var → Tree)
    (ts : List Tree) (t : Tree) : Prop where
  closed : s.Closed
  slots_lt : ∀ i ∈ slots, i < s.size
  result_lt : result < s.size
  ready : ∀ a ∈ args, ready s a
  models : s.Models (.trees R) θ
  walks : (Interpretation.trees R).WalksFrom (slots.map θ) (θ result) ts t
  asks : List.Forall₂ (asks (.trees R) θ) args ts
  commits : ∃ P : Nat → Prop, Commits each P args slots result s ∧
    ∀ k ≤ args.length, P k → (Interpretation.trees R).Awaits (slots.map θ) (θ result) ts k

namespace CanWalk

variable {arg : α} {slot : Var} {θ : Var → Tree} {ts : List Tree} {d t : Tree}

lemma take (hR : R.Joins) (hp : Places each ready var asks)
    (h : CanWalk each ready asks R (arg :: args) (slot :: slots) result s θ (d :: ts) t) :
    ∃ b s₁ θ₁, each arg slot s = .ok (b, s₁) ∧ s.Agree θ θ₁ ∧ s.size ≤ s₁.size ∧
      var arg b < s₁.size ∧ θ₁ (var arg b) = d ∧
      CanWalk each ready asks R args slots result s₁ θ₁ ts t := by
  obtain ⟨hs, hslots, hres, hready, hm, hw, hasks, P, hcom, hP⟩ := h
  obtain ⟨hslot, hslots⟩ := List.forall_mem_cons.1 hslots
  obtain ⟨harg, hready⟩ := List.forall_mem_cons.1 hready
  rw [List.map_cons] at hw hP
  cases hw with
  | take hw =>
    obtain ⟨hask, hasks⟩ := List.forall₂_cons.1 hasks
    obtain ⟨b, s₁, θ₁, hb, hag, hm₁, hv⟩ := hp.complete hR hs hslot harg hm hask
    obtain ⟨hg, hlt, -⟩ := hp.sound hs hslot harg hb
    rw [hag.map hslots, hag result hres] at hw
    have hready₁ : ∀ a ∈ args, ready s₁ a := fun a ha => hp.mono hg.size_le (hready a ha)
    refine ⟨b, s₁, θ₁, hb, hag, hg.size_le, hlt, hv, hg.closed, hg.forall_lt hslots, hg.lt hres,
      hready₁, hm₁, hw, ?_, P, hcom b s₁ hb, fun k hk hPk => ?_⟩
    · exact forall₂_imp_of_mem (fun a ha _ _ => hp.congr (hready a ha) hag) hasks
    · have hawait := (hP k (Nat.le_succ_of_le hk) hPk).of_take (by rwa [← hasks.length_eq])
      rwa [hag.map hslots, hag result hres] at hawait

lemma next (hR : R.Joins) (hp : Places each ready var asks)
    (h : CanWalk each ready asks R (arg :: args) [] result s θ (d :: ts) t) :
    ∃ a s₁ θ₁, s.expectArrow result (args.length + 1) = .ok (some a, s₁) ∧ s.Agree θ θ₁ ∧
      s.size ≤ s₁.size ∧
      CanWalk each ready asks R (arg :: args) (a.first :: a.rest) a.result s₁ θ₁ (d :: ts) t := by
  obtain ⟨hs, -, hres, hready, hm, hw, hasks, P, hcom, hP⟩ := h
  have hlen : args.length = ts.length := Nat.succ.inj hasks.length_eq
  have hex : ∃ ds : List Tree, 2 ≤ ds.length ∧ (Interpretation.trees R).IsArrow ds (θ result) := by
    cases hw with
    | next hr _ => exact ⟨_, by simp, hr⟩
  obtain ⟨ds, hds, hr⟩ := hex
  -- an arrow that is made up takes just the arguments that are left
  have hopen : s.cell result = .unknown → ds.length = args.length + 1 + 1 := by
    intro hc
    have hawait := hP (args.length + 1) (by simp) (hcom.1 hc)
    rw [hlen, ← List.length_cons (a := d)] at hawait
    obtain ⟨r, hr'⟩ := hawait.exists_isArrow
    rw [Interpretation.isArrow_trees_unique hr hr']
    simp [hlen]
  obtain ⟨a, s₁, θ₁, ha, hag, hm₁⟩ := Store.exists_expectArrow hR hs hres hm hr hds hopen
    fun hc => (hcom.2 hc).imp fun _ h => h.1
  obtain ⟨hg, harrow, hlen₁, hknown⟩ := Store.of_expectArrow_eq_ok hs hres ha
  obtain ⟨-, hslots, hres₁⟩ := Store.lt_of_expectArrow_eq_ok hs hres ha
  have hr₁ := Store.isArrow_trees_of_arrow? harrow hR hm₁
  rw [Arrow.types, List.map_append, List.map_cons, ← hag result hres] at hr₁
  obtain ⟨rfl, hw₁⟩ := Interpretation.WalksFrom.of_next hr₁ hw
  -- what is expected further on is expected of no more arguments than are left after this one
  refine ⟨a, s₁, θ₁, ha, hag, hg.size_le, hg.closed, hslots, hres₁,
    fun a ha => hp.mono hg.size_le (hready a ha), hm₁, .take hw₁, ?_,
    fun k => k ≤ args.length ∧ P k, ?_, fun k _ hk => ?_⟩
  · exact forall₂_imp_of_mem (fun a ha _ _ => hp.congr (hready a ha) hag) hasks
  · by_cases hc : s.cell result = .unknown
    · refine commits_of_length_le ?_
      rw [List.length_cons, List.length_cons, hlen₁ hc]
    · obtain rfl := hknown hc
      obtain ⟨a', ha', hrest⟩ := hcom.2 hc
      obtain rfl : a = a' := Option.some.inj (harrow.symm.trans ha')
      exact fun b s' hb => (hrest b s' hb).le
  · exact .take ((hP k (Nat.le_succ_of_le hk.1) hk.2).of_next hr₁ (by rw [← hlen]; exact hk.1))

end CanWalk

/-- A walk of inference that can be taken succeeds. -/
theorem exists_walk (notArrow : Node Empty → Error) {θ : Var → Tree} {ts : List Tree} {t : Tree}
    (hR : R.Joins) (hp : Places each ready var asks)
    (h : CanWalk each ready asks R args slots result s θ ts t) :
    ∃ bs v s' θ', walk each notArrow args slots result s = .ok ((bs, v), s') ∧ s.Agree θ θ' ∧
      s'.Models (.trees R) θ' ∧ (List.zipWith var args bs).map θ' = ts ∧ θ' v = t := by
  induction args generalizing slots result s θ ts with
  | nil =>
    obtain ⟨hs, hslots, hres, -, hm, hw, hasks, -⟩ := h
    cases hasks
    cases slots with
    | nil =>
      cases hw with
      | done => exact ⟨[], result, s, θ, rfl, .refl s θ, hm, rfl, rfl⟩
      | partway hslots => exact absurd rfl hslots
    | cons slot slots =>
      cases hw with
      | partway _ ht =>
        have hlt : ∀ i ∈ slot :: slots ++ [result], i < s.size := by
          simpa [or_imp, forall_and, hres] using hslots
        obtain ⟨θ₁, hag, hm₁, hv⟩ := Store.exists_models_pushArrow hs hlt hm (by
          rwa [List.map_append])
        exact ⟨[], _, _, θ₁, rfl, hag, hm₁, rfl, hv⟩
  | cons arg args ih =>
    cases ts with
    | nil => exact absurd h.asks (by simp)
    | cons d ts =>
      cases slots with
      | cons slot slots =>
        obtain ⟨b, s₁, θ₁, hb, hag, hle, hlt, hd, h⟩ := h.take hR hp
        obtain ⟨bs, v, s₂, θ₂, hrest, hag₂, hm₂, hts, hv⟩ := ih h
        refine ⟨b :: bs, v, s₂, θ₂, ?_, hag.trans hle hag₂, hm₂, ?_, hv⟩
        · simp only [walk, hb, hrest, bind, Except.bind, pure, Except.pure]
        · rw [List.zipWith_cons_cons, List.map_cons, hts, ← hag₂ _ hlt, hd]
      | nil =>
        obtain ⟨a, s₀, θ₀, ha, hag₀, hle₀, h⟩ := h.next hR hp
        obtain ⟨b, s₁, θ₁, hb, hag, hle, hlt, hd, h⟩ := h.take hR hp
        obtain ⟨bs, v, s₂, θ₂, hrest, hag₂, hm₂, hts, hv⟩ := ih h
        refine ⟨b :: bs, v, s₂, θ₂, ?_, hag₀.trans hle₀ (hag.trans hle hag₂), hm₂, ?_, hv⟩
        · simp only [walk, ha, hb, hrest, bind, Except.bind, pure, Except.pure]
        · rw [List.zipWith_cons_cons, List.map_cons, hts, ← hag₂ _ hlt, hd]

end Inference

end Typing
end TypedLisp
