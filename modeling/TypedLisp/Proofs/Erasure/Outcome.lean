import TypedLisp.Host
import TypedLisp.Proofs.Erasure.Node

/-!
# Erasure and outcomes

What a computation does with nodes from which something is taken away is what it does with the
nodes themselves, up to what is taken away.  The relation `Outcome.Follows` says this of the
outcomes of two computations; it also covers a computation that goes deeper than the other one may.
There is one rule for each way to put computations together, so that the outcome of a whole program
follows that of another one part by part.
-/

namespace TypedLisp

variable {H α β γ δ : Type}

/-! ### Scopes -/

namespace Bindings

/-- The map with each value replaced by what `f` makes of it. -/
def map (f : α → β) (b : Bindings α) : Bindings β :=
  ⟨b.entries.map fun p => (p.1, f p.2), List.pairwise_map.2 b.sorted⟩

variable (f : α → β)

@[simp] lemma map_empty : (empty : Bindings α).map f = empty := rfl

lemma lookup_map (key : String) (es : List (String × α)) :
    (es.map fun p => (p.1, f p.2)).lookup key = (es.lookup key).map f := by
  induction es with
  | nil => rfl
  | cons e es ih =>
    rw [List.map_cons, lookup_cons_eq_ite, lookup_cons_eq_ite, ih]
    split <;> rfl

@[simp] lemma get?_map (b : Bindings α) (key : String) :
    (b.map f).get? key = (b.get? key).map f :=
  lookup_map f key b.entries

@[simp] lemma contains_map (b : Bindings α) (key : String) :
    (b.map f).contains key = b.contains key := by
  simp [contains]

@[simp] lemma map_insert (b : Bindings α) (name : String) (value : α) :
    (b.insert name value).map f = (b.map f).insert name (f value) := by
  have entries : ∀ es : List (String × α),
      (insertEntry name value es).map (fun p => (p.1, f p.2)) =
        insertEntry name (f value) (es.map fun p => (p.1, f p.2)) := by
    intro es
    induction es with
    | nil => rfl
    | cons e es ih =>
      simp only [insertEntry, List.map_cons]
      split
      · rfl
      · split
        · rfl
        · rw [List.map_cons, ih]
  exact ext (entries b.entries)

lemma map_foldl_insert (pairs : List (String × α)) (b : Bindings α) :
    (pairs.foldl (fun b p => b.insert p.1 p.2) b).map f =
      (pairs.map fun p => (p.1, f p.2)).foldl (fun b p => b.insert p.1 p.2) (b.map f) := by
  induction pairs generalizing b with
  | nil => rfl
  | cons p pairs ih => simp [ih]

@[simp] lemma map_merge (a b : Bindings α) : (a.merge b).map f = (a.map f).merge (b.map f) :=
  map_foldl_insert f b.entries a

lemma map_ofList (pairs : List (String × α)) :
    (ofList pairs).map f = ofList (pairs.map fun p => (p.1, f p.2)) :=
  map_foldl_insert f pairs empty

end Bindings

/-- A scope without what is taken away from its nodes. -/
abbrev Scope.erase (e : Erasure) (scope : Scope H) : Scope H :=
  scope.map (Node.erase e)

lemma Scope.erase_insert (e : Erasure) (scope : Scope H) (name : String) (n : Node H) :
    Scope.erase e (scope.insert name n) = (Scope.erase e scope).insert name (n.erase e) :=
  Bindings.map_insert _ _ _ _

lemma Scope.erase_merge (e : Erasure) (a b : Scope H) :
    Scope.erase e (a.merge b) = (Scope.erase e a).merge (Scope.erase e b) :=
  Bindings.map_merge _ _ _

@[simp] lemma Scope.erase_prelude (e : Erasure) : Scope.erase e (prelude : Scope H) = prelude := by
  rw [prelude, Scope.erase, Bindings.map_ofList, List.map_map]
  simp [Function.comp_def]

@[simp] lemma Scope.erase_macroPrelude (e : Erasure) :
    Scope.erase e (macroPrelude : Scope H) = macroPrelude := by
  rw [macroPrelude, Scope.erase, Bindings.map_ofList, List.map_singleton, Node.erase_procedure]

/-! ### Errors -/

namespace Error

/-- An error without what is taken away: spans, and the hint that is guessed from them. -/
def erase (e : Erasure) (err : Error) : Error :=
  if e.spans then
    match err with
    | .lexical offset snippet => .lexical offset snippet
    | .grammar cause _ _ => .grammar cause none none
    | .typing cause _ => .typing cause []
    | .reference name _ => .reference name none
  else err

variable (e : Erasure)

lemma erase_typeAt (spans : List (Option Span)) (cause : TypeCause) :
    (typeAt spans cause).erase e = typeAt (spans.map e.span) cause := by
  cases h : e.spans
  · rw [Erasure.span_eq_id h, List.map_id]
    simp [erase, h]
  · rw [Erasure.span_eq_none h]
    simp [erase, typeAt, h]

lemma erase_reference (name : String) (span : Option Span) :
    (reference name span).erase e = reference name (e.span span) := by
  cases h : e.spans <;> simp [erase, Erasure.span, h]

lemma erase_orAt (err : Error) (span : Option Span) :
    (err.orAt span).erase e = (err.erase e).orAt (e.span span) := by
  cases h : e.spans
  · simp [erase, h, Erasure.span_eq_id h]
  · rcases err with _ | _ | ⟨cause, _ | ⟨s, spans⟩⟩ | _ <;> cases span <;>
      simp [erase, h, Erasure.span_eq_none h, orAt]

end Error

/-! ### Outcomes -/

/-- The outcome `y` follows `x` when it is the same one without what is taken away, `f` saying what
this makes of an answer.  Under the condition `T`, anything follows an outcome that is cut off. -/
inductive Outcome.Follows (T : Prop) (e : Erasure) (f : α → β) : Outcome α → Outcome β → Prop
  | answer (a : α) : Follows T e f (.ok a) (.ok (f a))
  | error (err : Error) : Follows T e f (.error (.raised err)) (.error (.raised (err.erase e)))
  | endless : Follows T e f (.error .endless) (.error .endless)
  | cut (h : T) (y : Outcome β) : Follows T e f (.error .endless) y

namespace Outcome

lemma ofExcept_map (x : Except Error α) (f : α → β) : ofExcept (x.map f) = (ofExcept x).map f := by
  cases x <;> rfl

lemma ofExcept_bind (x : Except Error α) (f : α → Except Error β) :
    ofExcept (x >>= f) = ofExcept x >>= fun a => ofExcept (f a) := by
  cases x <;> rfl

lemma ofExcept_mapM (f : α → Except Error β) (xs : List α) :
    ofExcept (xs.mapM f) = xs.mapM fun a => ofExcept (f a) := by
  induction xs with
  | nil => rfl
  | cons a xs ih =>
    rw [List.mapM_cons, List.mapM_cons, ← ih]
    cases f a with
    | error err => rfl
    | ok b => cases xs.mapM f <;> rfl

variable {T : Prop} {e : Erasure} {f : α → β} {g : γ → δ} {x : Outcome α} {y : Outcome β}

namespace Follows

/-- What an answer follows is an answer. -/
lemma of_ok {b : β} (h : Follows False e f x (.ok b)) : ∃ a, x = .ok a ∧ f a = b := by
  generalize hy : (.ok b : Outcome β) = y at h
  cases h with
  | answer a => exact ⟨a, rfl, (Except.ok.inj hy).symm⟩
  | error | endless => cases hy
  | cut hcut => exact hcut.elim

/-- What an error follows is an error. -/
lemma of_raised {err : Error} (h : Follows False e f x (.error (.raised err))) :
    ∃ err', x = .error (.raised err') ∧ err'.erase e = err := by
  generalize hy : (.error (.raised err) : Outcome β) = y at h
  cases h with
  | error err' => exact ⟨err', rfl, (Failure.raised.inj (Except.error.inj hy)).symm⟩
  | answer | endless => cases hy
  | cut hcut => exact hcut.elim

lemma of_eq {a : α} {b : β} (h : f a = b) : Follows T e f (.ok a) (.ok b) :=
  h ▸ answer a

lemma raise {err err' : Error} (h : err.erase e = err') :
    Follows T e f (Outcome.raise err) (Outcome.raise err') :=
  h ▸ error err

lemma typeError (spans : List (Option Span)) (cause : TypeCause) :
    Follows T e f (Outcome.typeError spans cause) (Outcome.typeError (spans.map e.span) cause) :=
  raise (Error.erase_typeAt e spans cause)

lemma typeErrorAt (span : Option Span) (cause : TypeCause) :
    Follows T e f (Outcome.typeError [span] cause) (Outcome.typeError [e.span span] cause) :=
  typeError [span] cause

lemma bind_of_eq (h : x.Follows T e f y) {k : α → Outcome γ} {l : β → Outcome δ}
    (hk : ∀ a, x = .ok a → (k a).Follows T e g (l (f a))) : (x >>= k).Follows T e g (y >>= l) := by
  cases h with
  | answer a => exact hk a rfl
  | error err => exact error err
  | endless => exact endless
  | cut hT y => exact cut hT _

lemma bind (h : x.Follows T e f y) {k : α → Outcome γ} {l : β → Outcome δ}
    (hk : ∀ a, (k a).Follows T e g (l (f a))) : (x >>= k).Follows T e g (y >>= l) :=
  h.bind_of_eq fun a _ => hk a

lemma map (h : x.Follows T e f y) {k : α → γ} {l : β → δ} (hk : ∀ a, g (k a) = l (f a)) :
    Follows T e g (x.map k) (y.map l) := by
  cases h with
  | answer a => exact of_eq (hk a)
  | error err => exact error err
  | endless => exact endless
  | cut hT y => exact cut hT _

lemma orAt (h : x.Follows T e f y) (span : Option Span) :
    (x.orAt span).Follows T e f (y.orAt (e.span span)) := by
  cases h with
  | answer a => exact answer a
  | error err =>
    rw [Outcome.orAt, Outcome.orAt, ← Error.erase_orAt]
    exact error _
  | endless => exact endless
  | cut hT y => exact cut hT _

/-- Computations that follow each other for all items of a list do so together. -/
lemma mapM {k : α → Outcome γ} {l : β → Outcome δ} (f : α → β) :
    ∀ xs : List α, (∀ a ∈ xs, (k a).Follows T e g (l (f a))) →
      (xs.mapM k).Follows T e (List.map g) ((xs.map f).mapM l)
  | [], _ => answer []
  | a :: xs, h => by
    rw [List.mapM_cons, List.map_cons, List.mapM_cons]
    exact (h a (by simp)).bind fun b =>
      (mapM f xs fun a ha => h a (by simp [ha])).bind fun bs => answer (b :: bs)

lemma bindExcept {x : Except Error α} {y : Except Error β}
    (h : (ofExcept x).Follows T e f (ofExcept y)) {k : α → Except Error γ} {l : β → Except Error δ}
    (hk : ∀ a, (ofExcept (k a)).Follows T e g (ofExcept (l (f a)))) :
    (ofExcept (x >>= k)).Follows T e g (ofExcept (y >>= l)) := by
  rw [ofExcept_bind, ofExcept_bind]
  exact h.bind hk

lemma mapMExcept {k : α → Except Error γ} {l : β → Except Error δ} (f : α → β) (xs : List α)
    (h : ∀ a ∈ xs, (ofExcept (k a)).Follows T e g (ofExcept (l (f a)))) :
    (ofExcept (xs.mapM k)).Follows T e (List.map g) (ofExcept ((xs.map f).mapM l)) := by
  rw [ofExcept_mapM, ofExcept_mapM]
  exact mapM f xs h

lemma mapMBindings {k : α → Outcome γ} {l : β → Outcome δ} {f : α → β}
    (h : ∀ a, (k a).Follows T e g (l (f a))) (b : Bindings α) :
    Follows T e (Bindings.map g) (b.mapM k) ((b.map f).mapM l) := by
  have hentry : ∀ p : String × α, Follows T e (fun p => (p.1, g p.2))
      (do let v ← k p.2; return (p.1, v)) (do let v ← l (f p.2); return (p.1, v)) :=
    fun p => (h p.2).bind fun v => .of_eq rfl
  have hpairs : Follows T e (List.map fun p => (p.1, g p.2))
      (b.entries.mapM fun p => do let v ← k p.2; return (p.1, v))
      ((b.entries.map fun p => (p.1, f p.2)).mapM fun p => do let v ← l p.2; return (p.1, v)) :=
    mapM _ b.entries fun p _ => hentry p
  exact hpairs.bind fun pairs => .of_eq (Bindings.map_ofList g pairs)

/-- Where nothing is cut off, the one outcome says all of the other one. -/
lemma eq_of_not (h : x.Follows T e f y) (hT : ¬ T) :
    (∃ a, x = .ok a ∧ y = .ok (f a)) ∨
      (∃ err, x = .error (.raised err) ∧ y = .error (.raised (err.erase e))) ∨
      x = .error .endless ∧ y = .error .endless := by
  cases h with
  | answer a => exact .inl ⟨a, rfl, rfl⟩
  | error err => exact .inr (.inl ⟨err, rfl, rfl⟩)
  | endless => exact .inr (.inr ⟨rfl, rfl⟩)
  | cut h y => exact absurd h hT

end Follows

end Outcome

end TypedLisp
