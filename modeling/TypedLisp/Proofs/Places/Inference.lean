import TypedLisp.Proofs.Places.Node
import TypedLisp.Proofs.TypeErasure
import TypedLisp.Proofs.Typing.Form
import TypedLisp.Proofs.Typing.Tangle

/-!
# Places of inferred types

The store keeps the spans of the types that are put into it and makes up none: a merge of two types
keeps the span of one of them.  So a type that is read from the store, for the sake of an error or
to be written into a node, has a span in the text or none.
-/

namespace TypedLisp

variable {H α β : Type} {cs : List Char}

/-- A computation without errors. -/
lemma Outcome.StaysIn.of_ne_raised {G : α → Prop} {x : Outcome α}
    (h : ∀ e, x ≠ .error (.raised e)) (hok : ∀ a, x = .ok a → G a) : x.StaysIn cs G := by
  rcases x with (e | _) | a
  · exact absurd rfl (h e)
  · exact .endless
  · exact .ok (hok a rfl)

namespace Typing

/-- The span of what is known of a variable. -/
def Cell.span? : Cell → Option Span
  | .atom _ span | .list _ span => span
  | .unknown | .aliasOf _ => none

lemma Cell.span?_redirect (keep drop : Var) (c : Cell) :
    (c.redirect keep drop).span? = c.span? := by
  cases c <;> rfl

/-- The spans of all that is known of variables lie in a text. -/
def Store.IsPlaced (cs : List Char) (s : Store) : Prop :=
  ∀ c ∈ s.cells, Span.IsInIfAny c.span? cs

/-- A run that starts from spans in a text stays in the text. -/
abbrev StaysPlaced (cs : List Char) (x : Outcome (α × Store)) : Prop :=
  x.StaysIn cs fun p => p.2.IsPlaced cs

namespace Store

variable {s : Store} {c : Cell} {v w keep drop : Var}

lemma isPlaced_empty : Store.empty.IsPlaced cs := by
  simp [IsPlaced, Store.empty]

lemma IsPlaced.push (h : s.IsPlaced cs) (hc : Span.IsInIfAny c.span? cs) :
    (s.push c).2.IsPlaced cs := by
  intro d hd
  rcases Array.mem_push.1 hd with hd | rfl
  · exact h d hd
  · exact hc

lemma IsPlaced.cell (h : s.IsPlaced cs) (v : Var) : Span.IsInIfAny (s.cell v).span? cs := by
  rw [Store.cell, Array.getD_eq_getD_getElem?]
  cases hc : s.cells[s.root v]? with
  | none => exact Span.isInIfAny_none
  | some c => exact h c (Array.mem_of_getElem? hc)

lemma IsPlaced.merge (h : s.IsPlaced cs) (hc : Span.IsInIfAny c.span? cs) :
    (s.merge keep drop c).IsPlaced cs := by
  intro d hd
  rcases Array.mem_or_eq_of_mem_setIfInBounds hd with hd | rfl
  · rcases Array.mem_or_eq_of_mem_setIfInBounds hd with hd | rfl
    · obtain ⟨c', hc', rfl⟩ := Array.mem_map.1 hd
      rw [Cell.span?_redirect]
      exact h c' hc'
    · exact hc
  · exact Span.isInIfAny_none

/-! ### Types in and out of the store -/

mutual

theorem intern_staysPlaced : ∀ (n : Node H) (s : Store), n.IsLaid cs → s.IsPlaced cs →
    StaysPlaced cs (s.intern n)
  | ⟨.null, _, _⟩, s, hn, hs => .ok (hs.push Span.isInIfAny_none)
  | ⟨.atom name, span, _⟩, s, hn, hs => .ok (hs.push hn.span_isIn)
  | ⟨.list items, span, _⟩, s, hn, hs => by
    have hspan : Span.IsInIfAny span cs := hn.span_isIn
    rw [intern]
    exact (internAll_staysPlaced items s hn.parts hs).bind fun p hp => .ok (hp.push hspan)
  | ⟨.quoted _, _, _⟩, s, hn, hs | ⟨.str _, _, _⟩, s, hn, hs | ⟨.keyword _, _, _⟩, s, hn, hs
  | ⟨.value _, _, _⟩, s, hn, hs | ⟨.procedure _, _, _⟩, s, hn, hs => .typeErrorAt _ hn.span_isIn

theorem internAll_staysPlaced : ∀ (ns : List (Node H)) (s : Store), (∀ n ∈ ns, n.IsLaid cs) →
    s.IsPlaced cs → StaysPlaced cs (s.internAll ns)
  | [], s, hns, hs => .ok hs
  | n :: ns, s, hns, hs => by
    obtain ⟨hn, hns⟩ := List.forall_mem_cons.1 hns
    rw [internAll]
    exact (intern_staysPlaced n s hn hs).bind fun p hp =>
      (internAll_staysPlaced ns p.2 hns hp).bind fun q hq => .ok hq

end

/-- A type is read with the span of what is known of its variable. -/
lemma span_of_readTo {depth : Nat} {n : Node H} (h : s.readTo depth v = .ok n) :
    n.span = (s.cell v).span? := by
  cases depth with
  | zero => cases h
  | succ depth =>
    rw [readTo] at h
    split at h
    · next hc =>
      obtain rfl := Except.ok.inj h
      rw [hc]
      rfl
    · next hc =>
      obtain rfl := Except.ok.inj h
      rw [hc]
      rfl
    · next hc =>
      obtain rfl := Except.ok.inj h
      rw [hc]
      rfl
    · next hc =>
      obtain ⟨nodes, -, h⟩ := Except.exists_of_bind_eq_ok h
      obtain rfl := Except.ok.inj h
      rw [hc]
      rfl

/-- Reading fails with no error, whatever is known. -/
lemma read_staysAnywhere (s : Store) (v : Var) :
    (s.read (H := H) v).StaysIn cs fun _ => True :=
  .of_ne_raised (fun _ => readTo_ne_raised) fun _ _ => trivial

lemma read_staysIn (hs : s.IsPlaced cs) (v : Var) :
    (s.read (H := H) v).StaysIn cs fun n => Span.IsInIfAny n.span cs := by
  refine .of_ne_raised (fun e => readTo_ne_raised) fun n hn => ?_
  rw [span_of_readTo hn]
  exact hs.cell v

/-! ### Unification -/

lemma planBind_staysIn (hs : s.IsPlaced cs) (hc : Span.IsInIfAny c.span? cs) :
    (s.planBind v w c).StaysIn cs fun m => Span.IsInIfAny m.cell.span? cs := by
  have hoccurs : (s.occurs v w).StaysIn cs fun _ => True :=
    .of_ne_raised (fun e => occursTo_ne_raised) fun _ _ => trivial
  refine hoccurs.bind fun found _ => ?_
  cases found with
  | true => exact (read_staysIn (H := Empty) hs w).bind fun type htype => .typeErrorAt _ htype
  | false => exact .ok hc

lemma plan_staysIn (hs : s.IsPlaced cs) (v w : Var) :
    (s.plan v w).StaysIn cs fun m => Span.IsInIfAny m.cell.span? cs := by
  have hv := hs.cell v
  have hw := hs.cell w
  have htwo {sx sy : Option Span} (hx : Span.IsInIfAny sx cs) (hy : Span.IsInIfAny sy cs)
      (cause : TypeCause) : (Outcome.typeError [sx, sy] cause).StaysIn cs
        fun m : Merge => Span.IsInIfAny m.cell.span? cs :=
    .typeError cause (by simpa using ⟨hx, hy⟩)
  unfold plan
  split
  · exact planBind_staysIn hs hw
  · exact planBind_staysIn hs hv
  · next n sx m sy hcv hcw =>
    rw [hcv] at hv
    rw [hcw] at hw
    split
    · exact .ok (hv.or hw)
    · exact htwo hv hw _
  · next xs sx ys sy hcv hcw =>
    rw [hcv] at hv
    rw [hcw] at hw
    split
    · exact .ok (hv.or hw)
    · exact htwo hv hw _
  · exact (read_staysIn (H := Empty) hs v).bind fun left hleft =>
      (read_staysIn (H := Empty) hs w).bind fun right hright => htwo hleft hright _

theorem unifyAll_staysIn (hs : s.IsPlaced cs) (pairs : List (Var × Var)) :
    (s.unifyAll pairs).StaysIn cs (Store.IsPlaced cs) := by
  fun_induction unifyAll s pairs with
  | case1 s => exact .ok hs
  | case2 s a b pairs hroots e he =>
    have hplan := plan_staysIn hs (s.root a) (s.root b)
    rw [he] at hplan
    cases hplan with
    | raised h => exact .raised h
    | endless => exact .endless
  | case3 s a b pairs hroots m hm ih =>
    have hplan := plan_staysIn hs (s.root a) (s.root b)
    rw [hm] at hplan
    exact ih (hs.merge hplan.answer)
  | case4 s a b pairs hroots ih => exact ih hs

lemma unify_staysIn (hs : s.IsPlaced cs) (v w : Var) :
    (s.unify v w).StaysIn cs (Store.IsPlaced cs) :=
  unifyAll_staysIn hs [(v, w)]

/-! ### Arrows -/

lemma IsPlaced.pushUnknowns (hs : s.IsPlaced cs) (n : Nat) : (s.pushUnknowns n).2.IsPlaced cs := by
  induction n generalizing s with
  | zero => exact hs
  | succ n ih =>
    have hpush : (s.push .unknown).2.IsPlaced cs := hs.push Span.isInIfAny_none
    exact ih hpush

lemma IsPlaced.pushArrow (hs : s.IsPlaced cs) (types : List Var) :
    (s.pushArrow types).2.IsPlaced cs := by
  have hhead : (s.push (.atom Node.arrowName none)).2.IsPlaced cs := hs.push Span.isInIfAny_none
  exact hhead.push Span.isInIfAny_none

lemma IsPlaced.pushUnknownArrow (hs : s.IsPlaced cs) (arity : Nat) :
    (s.pushUnknownArrow arity).2.IsPlaced cs :=
  (hs.pushUnknowns (arity + 1)).pushArrow _

lemma expectArrow_staysPlaced (hs : s.IsPlaced cs) (v : Var) (arity : Nat) :
    StaysPlaced cs (s.expectArrow v arity) := by
  unfold expectArrow
  split
  · exact (unify_staysIn (hs.pushUnknownArrow arity) _ _).bind fun s' hs' => .ok hs'
  · exact .ok hs

end Store

/-! ### Walks -/

section Walk

variable {each : α → Var → Store → Outcome (β × Store)} {notArrow : Node Empty → Error}

/-- A walk stays in the text if its steps and its own error do. -/
theorem walk_staysPlaced (hnot : ∀ type : Node Empty, Span.IsInIfAny type.span cs →
      (notArrow type).PointsInto cs)
    {args : List α} (heach : ∀ arg ∈ args, ∀ (slot : Var) (s : Store), s.IsPlaced cs →
      StaysPlaced cs (each arg slot s))
    (slots : List Var) (result : Var) {s : Store} (hs : s.IsPlaced cs) :
    StaysPlaced cs (walk each notArrow args slots result s) := by
  induction args generalizing slots result s with
  | nil =>
    cases slots with
    | nil => exact .ok hs
    | cons slot slots => exact .ok (hs.pushArrow _)
  | cons arg args ih =>
    obtain ⟨harg, hargs⟩ := List.forall_mem_cons.1 heach
    cases slots with
    | cons slot slots =>
      rw [walk]
      exact (harg slot s hs).bind fun p hp => (ih hargs slots result hp).bind fun q hq => .ok hq
    | nil =>
      rw [walk]
      -- the slots are used up: what is left has to be an arrow, or is made one if it is unknown
      refine (Store.expectArrow_staysPlaced hs result _).bind ?_
      rintro ⟨arrow?, s₁⟩ hs₁
      cases arrow? with
      | none =>
        exact (Store.read_staysIn hs₁ result).bind fun type htype => .raised (hnot type htype)
      | some arrow =>
        exact (harg arrow.first s₁ hs₁).bind fun p hp =>
          (ih hargs arrow.rest arrow.result hp).bind fun q hq => .ok hq

lemma sketchParam_staysPlaced {param : Node H} (hparam : param.IsPlaced cs (Node.IsLaid cs))
    (slot : Var) {s : Store} (hs : s.IsPlaced cs) : StaysPlaced cs (sketchParam param slot s) := by
  have htype : param.type.IsLaid cs := hparam.type .null
  rw [sketchParam]
  exact (Store.intern_staysPlaced _ s htype hs).bind fun p hp =>
    (Store.unify_staysIn hp _ _).bind fun _ hunify => .ok hunify

lemma sketchArg_staysPlaced (arg slot : Var) {s : Store} (hs : s.IsPlaced cs) :
    StaysPlaced cs (sketchArg arg slot s) :=
  (Store.unify_staysIn hs _ _).bind fun _ hunify => .ok hunify

end Walk

/-! ### Forms -/

section Forms

variable {span : Option Span} {type : Node H} {s : Store}

lemma paramNames_staysIn {params : Node H} (h : params.IsPlaced cs (Node.IsLaid cs)) :
    (Outcome.ofExcept (paramNames params)).StaysIn cs
      fun names => ∀ p ∈ names, p.IsPlaced cs (Node.IsLaid cs) := by
  obtain ⟨kind, span, type⟩ := params
  have hempty : (Outcome.ofExcept (.error (.typeAt [span] .paramsEmpty) :
      Except Error (List (Node H)))).StaysIn cs
        fun names => ∀ p ∈ names, p.IsPlaced cs (Node.IsLaid cs) :=
    .typeErrorAt _ h.span_isIn
  cases kind with
  | list names =>
    have hnames : ∀ p ∈ names, p.IsPlaced cs (Node.IsLaid cs) := h.parts
    unfold paramNames
    split
    · exact hempty
    · exact hempty
    · next names' _ heq =>
      obtain rfl : names = names' := Option.some.inj heq
      split
      · next bad hbad =>
        exact .typeErrorAt _ (hnames bad (List.mem_of_find?_eq_some hbad)).span_isIn
      · exact .ok hnames
  | quoted | atom | str | null | keyword | value | procedure => exact hempty

lemma openLambda_staysPlaced (hspan : Span.IsInIfAny span cs) (htype : type.IsLaid cs)
    {names : List (Node H)} (hnames : ∀ p ∈ names, p.IsPlaced cs (Node.IsLaid cs))
    (hs : s.IsPlaced cs) : StaysPlaced cs (openLambda span type names s) := by
  have herror : ∀ t : Node Empty, Span.IsInIfAny t.span cs → (lambdaError span t).PointsInto cs :=
    fun t ht => Error.pointsInto_typeAt _ (by simpa using ⟨hspan, ht⟩)
  rw [openLambda]
  refine (Store.intern_staysPlaced type s htype hs).bind fun p hp => ?_
  have hparam := fun q hq slot s hs => sketchParam_staysPlaced (s := s) (hnames q hq) slot hs
  exact (walk_staysPlaced herror hparam [] p.1 hp).bind fun r hr => .ok hr

lemma closeLambda_staysPlaced {f : Lambda} {head params : Node H} {names : List (Node H)}
    {body : Sketch H} (hhead : head.IsPlaced cs (Node.IsLaid cs))
    (hparams : params.IsPlaced cs (Node.IsLaid cs)) (hs : s.IsPlaced cs) :
    StaysPlaced cs (closeLambda f span head params names body s) := by
  have hheadtype : head.type.IsLaid cs := hhead.type .null
  have hparamstype : params.type.IsLaid cs := hparams.type .null
  rw [closeLambda]
  exact (Store.unify_staysIn hs _ _).bind fun s₁ hs₁ =>
    (Store.intern_staysPlaced _ s₁ hheadtype hs₁).bind fun p hp =>
      (Store.intern_staysPlaced _ p.2 hparamstype hp).bind fun q hq => .ok hq

lemma sketchForm_staysPlaced {calleeSpan : Option Span} (hcallee : Span.IsInIfAny calleeSpan cs)
    (htype : type.IsLaid cs) (items : List (Sketch H)) (hs : s.IsPlaced cs) :
    StaysPlaced cs (sketchForm calleeSpan span type items s) := by
  have hintern := Store.intern_staysPlaced type s htype hs
  have herror : ∀ t : Node Empty, Span.IsInIfAny t.span cs →
      (calleeError calleeSpan t).PointsInto cs :=
    fun t ht => Error.pointsInto_typeAt _ (by simpa using ⟨hcallee, ht⟩)
  match items with
  | [] | [_] => exact hintern.bind fun p hp => .ok hp
  | callee :: arg :: args =>
    refine hintern.bind fun p hp => ?_
    refine (walk_staysPlaced herror (fun a _ slot s hs => sketchArg_staysPlaced a slot hs)
      [] callee.var hp).bind fun q hq => ?_
    exact (Store.unify_staysIn hq _ _).bind fun s' hs' => .ok hs'

end Forms

/-! ### Nodes -/

/-- Sketching a node with spans in the text stays in the text. -/
def SketchStays (cs : List Char) (n : Node H) : Prop :=
  ∀ (scope : Params) (s : Store), n.IsPlaced cs (Node.IsLaid cs) → s.IsPlaced cs →
    StaysPlaced cs (sketch scope n s)

lemma SketchStays.all {ns : List (Node H)} (hns : ∀ n ∈ ns, SketchStays cs n) (scope : Params)
    {s : Store} (hplaced : ∀ n ∈ ns, n.IsPlaced cs (Node.IsLaid cs)) (hs : s.IsPlaced cs) :
    StaysPlaced cs (sketchAll scope ns s) := by
  induction ns generalizing s with
  | nil => exact .ok hs
  | cons n ns ih =>
    obtain ⟨hn, hns⟩ := List.forall_mem_cons.1 hns
    obtain ⟨hnplaced, hplaced⟩ := List.forall_mem_cons.1 hplaced
    rw [sketchAll]
    exact (hn scope s hnplaced hs).bind fun p hp => (ih hns hplaced hp).bind fun q hq => .ok hq

theorem sketchStays (n : Node H) : SketchStays cs n := by
  induction n using Node.formInduction with
  | function head params body span type hhead ih =>
    intro scope s hn hs
    have hitems : ∀ m ∈ [head, params, body], m.IsPlaced cs (Node.IsLaid cs) := hn.parts
    simp only [List.forall_mem_cons] at hitems
    obtain ⟨hheadplaced, hparams, hbody, -⟩ := hitems
    rw [sketch_function hhead]
    exact (paramNames_staysIn hparams).bind fun names hnames =>
      (openLambda_staysPlaced hn.span_isIn (hn.type .null) hnames hs).bind fun p hp =>
        (ih _ p.2 hbody hp).bind fun q hq => closeLambda_staysPlaced hheadplaced hparams hq
  | list items span type hitems ih =>
    intro scope s hn hs
    have hparts : ∀ m ∈ items, m.IsPlaced cs (Node.IsLaid cs) := hn.parts
    have hhead : Span.IsInIfAny (items.head?.bind Node.span) cs := by
      cases items with
      | nil => exact Span.isInIfAny_none
      | cons head items => exact (hparts head List.mem_cons_self).span_isIn
    rw [sketch_list hitems]
    exact (SketchStays.all ih scope hparts hs).bind fun p hp =>
      sketchForm_staysPlaced hhead (hn.type .null) p.1 hp
  | atom name span type =>
    intro scope s hn hs
    have htype := hn.type .null
    rw [sketch, sketchAtom]
    refine (Store.intern_staysPlaced _ s htype hs).bind fun p hp => ?_
    cases scope.lookup name with
    | none => exact .ok hp
    | some param => exact (Store.unify_staysIn hp _ _).bind fun s' hs' => .ok hs'
  | leaf kind span type hlist hatom =>
    intro scope s hn hs
    rw [sketch_leaf hlist hatom, sketchLeaf]
    exact (Store.intern_staysPlaced _ s (hn.type .null) hs).bind fun p hp => .ok hp

/-! ### Inference -/

mutual

/-- Types are written into nodes without errors. -/
theorem resolve_staysIn (s : Store) : ∀ t : Sketch H, (t.resolve s).StaysIn cs fun _ => True
  | .leaf node v => by
    rw [Sketch.resolve]
    exact (s.read_staysAnywhere v).bind fun _ _ => .ok trivial
  | .list items span v => by
    rw [Sketch.resolve]
    exact (resolveAll_staysIn s items).bind fun _ _ =>
      (s.read_staysAnywhere v).bind fun _ _ => .ok trivial

theorem resolveAll_staysIn (s : Store) :
    ∀ ts : List (Sketch H), (Sketch.resolveAll s ts).StaysIn cs fun _ => True
  | [] => .ok trivial
  | t :: ts => by
    rw [Sketch.resolveAll]
    exact (resolve_staysIn s t).bind fun _ _ =>
      (resolveAll_staysIn s ts).bind fun _ _ => .ok trivial

end

/-- **Inference stays in the text**: its errors point into the text, and its answers are placed as
the nodes are that it starts from. -/
theorem infer_staysIn {n : Node H} (hn : n.IsPlaced cs (Node.IsLaid cs)) :
    (infer n).StaysIn cs (Node.IsPlaced cs fun _ => True) := by
  have hinfer : (infer n).StaysIn cs fun _ => True := by
    rw [infer]
    exact (sketchStays n [] .empty hn Store.isPlaced_empty).bind fun p _ =>
      resolve_staysIn p.2 p.1
  generalize h : infer n = x at hinfer
  cases hinfer with
  | raised he => exact .raised he
  | endless => exact .endless
  | @ok t _ =>
    -- but for types the answer is the node, and of types nothing is asked any more
    have hplain : n.withoutTypes.IsPlaced cs fun _ => True :=
      (hn.imp fun _ _ => trivial).withoutTypes
    rw [← withoutTypes_of_infer h] at hplain
    exact .ok (.of_withoutTypes t hplain)

end Typing
end TypedLisp
