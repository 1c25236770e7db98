import TypedLisp.Proofs.Hostless
import TypedLisp.Proofs.Layout
import TypedLisp.Proofs.Reading.Seam

/-!
# Programs piece by piece

A program may be expanded piece by piece, each piece with the constants of the pieces before it.
This gives the same as to expand the pieces at once, as one source with line breaks between them:
the same forms and constants up to spans, an error of the same kind for the same reason, or no end.
The second piece is read further to the right there, and expansion does not look at spans; nor could
a function of the host that stands for a name, since expansion calls none.
-/

namespace TypedLisp

variable {H α β : Type}

open Outcome (Follows)

/-! ### Outcomes -/

namespace Outcome

lemma Alike.refl (x : Outcome α) : x.Alike x := by
  rcases x with (err | _) | a
  · exact .error rfl rfl
  · exact .endless
  · exact .answer a

lemma Alike.map {x y : Outcome α} (h : x.Alike y) (f : α → β) : Alike (x.map f) (y.map f) := by
  cases h with
  | answer a => exact .answer _
  | error hkind hcause => exact .error hkind hcause
  | endless => exact .endless

end Outcome

/-! ### Spans -/

/-- The expansion of sources does not look at spans, whatever the constants are. -/
lemma expandProgram_alike [host : Host H] (depth : Nat) (consts : Scope H)
    {forms forms' : List (Node H)} (hforms : ∀ form ∈ forms, form.IsHostless)
    (hforms' : ∀ form ∈ forms', form.IsHostless) (h : List.Forall₂ Node.Agrees forms forms') :
    Outcome.Alike ((expandProgram depth consts forms).map (Expansion.erase .ofSpans))
      ((expandProgram depth consts forms').map (Expansion.erase .ofSpans)) := by
  rw [expandProgram_eq_of_isHostless host Host.failing depth consts hforms,
    expandProgram_eq_of_isHostless host Host.failing depth consts hforms']
  have hev := @evaluate_follows H False .ofSpans Host.failing (Host.isBlind_failing _ _) depth
    depth (.inl rfl)
  have hfollows (forms : List (Node H)) :=
    (expandForms_follows hev consts forms).map (g := id) (k := Expansion.erase .ofSpans) (l := id)
      fun _ => rfl
  have hfollows' := hfollows forms'
  rw [← Reader.map_erase_of_agrees h] at hfollows'
  exact (hfollows forms).alike hfollows'

/-! ### Pieces -/

/-- The expansion of two pieces of a program in turn: the first one with some constants, the second
one with the constants that the expansion of the first one ends with. -/
def expandInTurn [Host H] (depth : Nat) (consts : Scope H) (first second : List (Node H)) :
    Outcome (Expansion H) := do
  let x ← expandProgram depth consts first
  let y ← expandProgram depth x.consts second
  return ⟨x.forms ++ y.forms, y.consts⟩

/-- Forms that are expanded one after the other can be expanded in two pieces. -/
lemma expandForms_append (evaluate : Scope H → Node H → Outcome (Node H)) (consts : Scope H)
    (first second : List (Node H)) :
    expandForms evaluate consts (first ++ second) = (do
      let x ← expandForms evaluate consts first
      let y ← expandForms evaluate x.consts second
      return ⟨x.forms ++ y.forms, y.consts⟩) := by
  induction first generalizing consts with
  | nil =>
    rw [List.nil_append, expandForms]
    exact (bind_pure _).symm
  | cons form first ih =>
    rw [List.cons_append, expandForms, expandForms]
    simp only [ih, bind_assoc, pure_bind, List.append_assoc]

lemma deepens_expandInTurn [Host H] (consts : Scope H) (first second : List (Node H)) :
    Deepens fun depth => expandInTurn depth consts first second := by
  have h : (fun depth => expandInTurn depth consts first second) =
      fun depth => expandProgram depth consts (first ++ second) := by
    funext depth
    exact (expandForms_append (evaluate depth) consts first second).symm
  rw [h]
  exact deepens_expandProgram consts (first ++ second)

/-- At every depth, a source of two pieces is expanded as the pieces are in turn. -/
lemma expandProgram_append_alike [Host H] (depth : Nat) (consts : Scope H)
    (first : List (Node H)) {second second' : List (Node H)}
    (hsecond : ∀ form ∈ second, form.IsHostless) (hsecond' : ∀ form ∈ second', form.IsHostless)
    (h : List.Forall₂ Node.Agrees second second') :
    Outcome.Alike ((expandProgram depth consts (first ++ second')).map (Expansion.erase .ofSpans))
      ((expandInTurn depth consts first second).map (Expansion.erase .ofSpans)) := by
  rw [expandProgram, expandForms_append, expandInTurn]
  change Outcome.Alike (Except.map _ (expandProgram depth consts first >>= _)) _
  cases expandProgram depth consts first with
  | error f => exact .refl _
  | ok x =>
    have hforms (o : Outcome (Expansion H)) :
        (o >>= fun y => Except.ok ⟨x.forms ++ y.forms, y.consts⟩).map (Expansion.erase .ofSpans) =
          (o.map (Expansion.erase .ofSpans)).map fun y =>
            ⟨x.forms.map (Node.erase .ofSpans) ++ y.forms, y.consts⟩ := by
      cases o with
      | error f => rfl
      | ok y => simp [Expansion.erase, Except.map, bind, Except.bind]
    have hagree : List.Forall₂ Node.Agrees second' second := h.flip.imp fun _ _ h => h.symm
    have halike := (expandProgram_alike depth x.consts hsecond' hsecond hagree).map fun y =>
      (⟨x.forms.map (Node.erase .ofSpans) ++ y.forms, y.consts⟩ : Expansion H)
    rw [← hforms, ← hforms] at halike
    exact halike

/-- **Feeding a program piece by piece is the same as expanding it whole.**  Let two sources be
read, and let the last token of the first one not be a string that reaches its end without a closing
quotation mark.  Then the source of both, with a line break between them, is read, and for all
constants its expansion has the outcome of the two expansions in turn: up to spans, the forms of the
first one followed by those of the second one and the constants of the second one, or else an error
of the same kind, or no end. -/
theorem exists_settles_expandProgram_append [Host H] {a b : String} {ts : List Token}
    {as bs : List (Node H)} (hlex : lex a = .ok ts)
    (hclosed : ∀ t ∈ ts.getLast?, ¬ t.IsCutOff (Text.width a.toList)) (ha : read a = .ok as)
    (hb : read b = .ok bs) (consts : Scope H) :
    ∃ whole r r', read (a ++ "\n" ++ b) = .ok whole ∧
      Settles (fun depth => expandProgram depth consts whole) r ∧
      Settles (fun depth => expandInTurn depth consts as bs) r' ∧
      Outcome.Alike (r.map (Expansion.erase .ofSpans)) (r'.map (Expansion.erase .ofSpans)) := by
  obtain ⟨bs', hread, hagree⟩ := exists_read_append hlex hclosed ha hb
  have hbs := isHostless_of_read_eq_ok hb
  have hbs' : ∀ form ∈ bs', form.IsHostless := fun form hform =>
    isHostless_of_read_eq_ok hread form (List.mem_append_right as hform)
  obtain ⟨r, hr⟩ := (deepens_expandProgram consts (as ++ bs')).exists_settles
  obtain ⟨r', hr'⟩ := (deepens_expandInTurn consts as bs).exists_settles
  refine ⟨as ++ bs', r, r', hread, hr, hr', ?_⟩
  obtain ⟨depth, rfl, rfl⟩ := hr.exists_depth hr'
  exact expandProgram_append_alike depth consts as hbs hbs' hagree

/-- The program `(+ 1 1)` with the constant `one`. -/
def onePlusOne : Expansion Empty :=
  ⟨[.list [.atom "+" none, .atom "1" none, .atom "1" none] none],
    Bindings.empty.insert "one" (.atom "1" none)⟩

/-- A definition with a comment at the end, and a call in which the constant occurs. -/
theorem exists_settles_expandProgram_append_of_comment :
    ∃ (ts : List Token) (as bs : List (Node Empty)), lex "(def one 1) ; the unit" = .ok ts ∧
      (∀ t ∈ ts.getLast?, ¬ t.IsCutOff (Text.width "(def one 1) ; the unit".toList)) ∧
      read "(def one 1) ; the unit" = .ok as ∧ read "(+ one one)" = .ok bs ∧
      (∀ consts : Scope Empty, ∃ whole r r',
        read ("(def one 1) ; the unit" ++ "\n" ++ "(+ one one)") = .ok whole ∧
        Settles (fun depth => expandProgram depth consts whole) r ∧
        Settles (fun depth => expandInTurn depth consts as bs) r' ∧
        Outcome.Alike (r.map (Expansion.erase .ofSpans)) (r'.map (Expansion.erase .ofSpans))) ∧
      (∃ whole : List (Node Empty),
        read ("(def one 1) ; the unit" ++ "\n" ++ "(+ one one)") = .ok whole ∧
        (expandProgram 1 .empty whole).map (Expansion.erase .ofSpans) = .ok onePlusOne) ∧
      (expandInTurn 1 .empty as bs).map (Expansion.erase .ofSpans) = .ok onePlusOne := by
  obtain ⟨ts, as, bs, hlex, hclosed, ha, hb, hturn⟩ :
      ∃ (ts : List Token) (as bs : List (Node Empty)), lex "(def one 1) ; the unit" = .ok ts ∧
        (∀ t ∈ ts.getLast?, ¬ t.IsCutOff (Text.width "(def one 1) ; the unit".toList)) ∧
        read "(def one 1) ; the unit" = .ok as ∧ read "(+ one one)" = .ok bs ∧
        (expandInTurn 1 .empty as bs).map (Expansion.erase .ofSpans) = .ok onePlusOne := by
    refine ⟨_, _, _, by cbv, ?_, by cbv, by cbv, by cbv⟩
    rintro t ⟨⟩ ⟨⟨⟩, -⟩
  exact ⟨ts, as, bs, hlex, hclosed, ha, hb,
    exists_settles_expandProgram_append hlex hclosed ha hb, ⟨_, by cbv, by cbv⟩, hturn⟩

end TypedLisp
