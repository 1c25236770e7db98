import TypedLisp.Proofs.Erasure.Outcome
import TypedLisp.Proofs.Reading.Derivation

/-!
# Two layouts of a source

Two sources with the same lexemes are read in step.  After each token the two readers are in states
that differ in nothing but spans, so in the end both answer with forms that are the same up to
spans, or both fail for the same reason.
-/

namespace TypedLisp

variable {H α β γ δ : Type}

/-- Two sources are cut into tokens of the same kinds and texts, whatever is between the tokens. -/
def SameLexemes (source source' : String) : Prop :=
  (lex source).map (List.map Token.lexeme) = (lex source').map (List.map Token.lexeme)

/-- Two nodes are the same up to spans. -/
def Node.Agrees (n m : Node H) : Prop :=
  n.erase .ofSpans = m.erase .ofSpans

/-- Two errors are the same up to the places that they point at. -/
def Error.Agrees (err err' : Error) : Prop :=
  err.erase .ofSpans = err'.erase .ofSpans

/-- Two computations both have answers, related by `R`, or both fail for one reason. -/
inductive Except.Agree (R : α → β → Prop) : Except Error α → Except Error β → Prop
  | ok {a : α} {b : β} (h : R a b) : Agree R (.ok a) (.ok b)
  | error {err err' : Error} (h : err.Agrees err') : Agree R (.error err) (.error err')

lemma Except.Agree.bind {R : α → β → Prop} {S : γ → δ → Prop} {x : Except Error α}
    {y : Except Error β} (h : Except.Agree R x y) {k : α → Except Error γ} {l : β → Except Error δ}
    (hk : ∀ a b, R a b → Except.Agree S (k a) (l b)) : Except.Agree S (x.bind k) (y.bind l) := by
  cases h with
  | ok h => exact hk _ _ h
  | error h => exact .error h

/-- Two places are the same up to spans. -/
structure Place.Agrees (p p' : Place H) : Prop where
  items : List.Forall₂ Node.Agrees p.items p'.items
  target : Option.Rel (fun t t' => Node.Agrees t.2 t'.2) p.target p'.target
  quotes : List.Forall₂ (fun _ _ => True) p.quotes p'.quotes

namespace Reader

open Token (lexeme)

/-- Two states of reading are the same up to spans. -/
structure Agrees (r r' : Reader H) : Prop where
  place : r.place.Agrees r'.place
  enclosing : List.Forall₂ (fun p p' => Place.Agrees p.2 p'.2) r.enclosing r'.enclosing
  typeable : r.typeable = r'.typeable

lemma place_start_agrees : (Place.start : Place H).Agrees .start := ⟨.nil, .none, .nil⟩

/-! ### Whole values -/

lemma map_erase_of_agrees {ns ms : List (Node H)} (h : List.Forall₂ Node.Agrees ns ms) :
    ns.map (Node.erase .ofSpans) = ms.map (Node.erase .ofSpans) := by
  induction h with
  | nil => rfl
  | cons h _ ih => rw [List.map_cons, List.map_cons, ih, h]

lemma list_agrees {ns ms : List (Node H)} (h : List.Forall₂ Node.Agrees ns ms)
    (span span' : Option Span) : (Node.list ns span).Agrees (.list ms span') := by
  rw [Node.Agrees, Node.erase_list, Node.erase_list, map_erase_of_agrees h]
  rfl

lemma quote_agrees {n m : Node H} (h : n.Agrees m) (mark mark' : Span) :
    (quote n mark).Agrees (quote m mark') := by
  rw [Node.Agrees, quote, quote, Node.erase_quoted, Node.erase_quoted, h]
  rfl

lemma foldl_quote_agrees {quotes quotes' : List Span}
    (hquotes : List.Forall₂ (fun _ _ => True) quotes quotes') {n m : Node H} (h : n.Agrees m) :
    (quotes.foldl quote n).Agrees (quotes'.foldl quote m) := by
  induction hquotes generalizing n m with
  | nil => exact h
  | cons _ _ ih => exact ih (quote_agrees h _ _)

lemma withType_agrees {n m type type' : Node H} (h : n.Agrees m) (htype : type.Agrees type') :
    (n.withType type.withoutTypes).Agrees (m.withType type'.withoutTypes) := by
  have htypes : Erasure.ofSpans.type type.withoutTypes =
      Erasure.ofSpans.type type'.withoutTypes := by
    rw [Erasure.type, Erasure.type, Node.erase_withoutTypes, Node.erase_withoutTypes, htype]
  rw [Node.Agrees, Node.erase_withType, Node.erase_withType, h, htypes]

lemma fill_agrees {r r' : Reader H} (h : r.Agrees r') {n m : Node H} (hn : n.Agrees m) :
    (r.fill n).Agrees (r'.fill m) := by
  obtain ⟨⟨items, target, quotes⟩, enclosing, typeable⟩ := r
  obtain ⟨⟨items', target', quotes'⟩, enclosing', typeable'⟩ := r'
  obtain ⟨⟨hitems, htarget, hquotes⟩, henclosing, htypeable⟩ := h
  have hvalue := foldl_quote_agrees hquotes hn
  cases htarget with
  | none => exact ⟨⟨.cons hvalue hitems, .none, .nil⟩, henclosing, rfl⟩
  | some ht => exact ⟨⟨.cons (withType_agrees ht hvalue) hitems, .none, .nil⟩, henclosing, rfl⟩

/-! ### Steps -/

lemma depth_eq_of_agrees {r r' : Reader H} (h : r.Agrees r') : r.depth = r'.depth := by
  have hfold : ∀ {es es' : List (Span × Place H)},
      List.Forall₂ (fun p p' => Place.Agrees p.2 p'.2) es es' → ∀ n,
        es.foldl (fun n p => n + p.2.quotes.length + 1) n =
          es'.foldl (fun n p => n + p.2.quotes.length + 1) n := by
    intro es es' hes
    induction hes with
    | nil => exact fun _ => rfl
    | cons hp _ ih =>
      intro n
      rw [List.foldl_cons, List.foldl_cons, hp.quotes.length_eq, ih]
  rw [depth, depth, h.place.quotes.length_eq, hfold h.enclosing]

section

variable {r r' : Reader H} {t t' : Token}

lemma stepValue_agree (h : r.Agrees r') (ht : lexeme t = lexeme t') :
    Except.Agree Agrees (stepValue r t) (stepValue r' t') := by
  obtain ⟨kind, text, span⟩ := t
  obtain ⟨kind', text', span'⟩ := t'
  obtain ⟨rfl, rfl⟩ := Prod.mk.inj ht
  unfold stepValue
  rw [depth_eq_of_agrees h]
  split
  · exact .error rfl
  · cases kind with
    | opening => exact .ok ⟨place_start_agrees, .cons h.place h.enclosing, rfl⟩
    | quote =>
      exact .ok ⟨⟨h.place.items, h.place.target, .cons trivial h.place.quotes⟩, h.enclosing,
        h.typeable⟩
    | atom => exact .ok (fill_agrees h rfl)
    | str => exact .ok (fill_agrees h rfl)
    | keyword =>
      have hname : keywordName ⟨.keyword, text, span'⟩ = keywordName ⟨.keyword, text, span⟩ := rfl
      dsimp only
      rw [hname]
      split
      · exact .error rfl
      · exact .ok (fill_agrees h rfl)
    | closing | colon => exact .error rfl

/-- Two readers stay in step. -/
theorem step_agree (h : r.Agrees r') (ht : lexeme t = lexeme t') :
    Except.Agree Agrees (r.step t) (r'.step t') := by
  have hvalue : Except.Agree Agrees (stepValue { r with typeable := false } t)
      (stepValue { r' with typeable := false } t') :=
    stepValue_agree ⟨h.place, h.enclosing, rfl⟩ ht
  obtain ⟨⟨items, target, quotes⟩, enclosing, typeable⟩ := r
  obtain ⟨⟨items', target', quotes'⟩, enclosing', typeable'⟩ := r'
  obtain ⟨⟨hitems, htarget, hquotes⟩, henclosing, rfl⟩ := h
  obtain ⟨kind, text, span⟩ := t
  obtain ⟨kind', text', span'⟩ := t'
  obtain ⟨rfl, rfl⟩ := Prod.mk.inj ht
  cases kind with
  | colon =>
    cases typeable with
    | false => exact hvalue
    | true =>
      cases hitems with
      | nil => exact hvalue
      | cons hn hitems =>
        cases htarget with
        | some ht => exact hvalue
        | none =>
          cases hquotes with
          | cons _ _ => exact hvalue
          | nil => exact .ok ⟨⟨hitems, .some hn, .nil⟩, henclosing, rfl⟩
  | closing =>
    cases htarget with
    | some ht => exact hvalue
    | none =>
      cases hquotes with
      | cons _ _ => exact hvalue
      | nil =>
        cases henclosing with
        | nil => exact hvalue
        | cons hp henclosing =>
          have houtside : Agrees ⟨_, _, false⟩ ⟨_, _, false⟩ := ⟨hp, henclosing, rfl⟩
          exact .ok (fill_agrees houtside (list_agrees (List.rel_reverse hitems) _ _))
  | opening | quote | atom | str | keyword => exact hvalue

lemma finish_agree (h : r.Agrees r') (source source' : List Char) :
    Except.Agree (List.Forall₂ Node.Agrees) (r.finish source) (r'.finish source') := by
  obtain ⟨⟨items, target, quotes⟩, enclosing, typeable⟩ := r
  obtain ⟨⟨items', target', quotes'⟩, enclosing', typeable'⟩ := r'
  obtain ⟨⟨hitems, htarget, hquotes⟩, henclosing, -⟩ := h
  cases hquotes with
  | cons _ _ => exact .error rfl
  | nil =>
    cases htarget with
    | some ht => exact .error rfl
    | none =>
      cases henclosing with
      | cons _ _ => exact .error rfl
      | nil => exact .ok (List.rel_reverse hitems)

end

theorem run_agree {r r' : Reader H} {ts ts' : List Token} (h : r.Agrees r')
    (hts : ts.map lexeme = ts'.map lexeme) : Except.Agree Agrees (r.run ts) (r'.run ts') := by
  induction ts generalizing r r' ts' with
  | nil =>
    obtain rfl := List.map_eq_nil_iff.1 hts.symm
    exact .ok h
  | cons t ts ih =>
    obtain ⟨t', us, rfl, ht, hus⟩ := List.map_eq_cons_iff.1 hts.symm
    rw [run_cons, run_cons]
    exact (step_agree h ht.symm).bind fun _ _ h => ih h hus.symm

end Reader

/-- **Reading looks at no layout.**  Two sources with the same lexemes are both read, as forms that
are the same up to spans, or both fail for one reason. -/
theorem read_agree {source source' : String} (h : SameLexemes source source') :
    Except.Agree (List.Forall₂ Node.Agrees) (read source : Except Error (List (Node H)))
      (read source') := by
  obtain ⟨ts, hts⟩ := Token.exists_scanFrom_eq_ok 0 source.toList
  obtain ⟨ts', hts'⟩ := Token.exists_scanFrom_eq_ok 0 source'.toList
  have hlexemes : ts.map Token.lexeme = ts'.map Token.lexeme := by
    rw [SameLexemes, lex, lex, hts, hts'] at h
    exact Except.ok.inj h
  rw [read, read, lex, lex, hts, hts']
  have hstart : (Reader.start : Reader H).Agrees .start := ⟨Reader.place_start_agrees, .nil, rfl⟩
  exact (Reader.run_agree hstart hlexemes).bind fun _ _ h => Reader.finish_agree h _ _

end TypedLisp
