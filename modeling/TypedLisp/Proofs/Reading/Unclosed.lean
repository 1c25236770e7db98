import TypedLisp.Proofs.Reading.Completion
import TypedLisp.Proofs.Reading.Seam

/-!
# Behind an open list

The state of the reader is what is left of the tokens before it: for each open list, and for the
program around them, some items, and behind them perhaps a value with a colon, and quotation marks.
So a state is built from the tokens as they come, and when they end inside a list, then the items in
its state are those that stand behind the opening parenthesis of this list.
-/

namespace TypedLisp

variable {H : Type}

open Grammar (Program nodes tokens)

namespace Grammar

lemma tokens_concat (p : Program) (x : Typed) : tokens (p ++ [x]) = tokens p ++ x.tokens := by
  simp [tokens_append, tokens]

lemma nodes_concat (p : Program) (x : Typed) :
    (nodes (p ++ [x]) : List (Node H)) = nodes p ++ [x.node] := by
  simp [nodes_append, nodes]

end Grammar

/-! ### The tokens of a state -/

/-- The tokens that a place is built from: whole items, behind them perhaps a value and its colon,
and then quotation marks. -/
inductive Place.IsBuiltFrom : Place H → List Token → Prop where
  /-- Some items. -/
  | items (p : Program) : IsBuiltFrom ⟨(nodes p).reverse, none, []⟩ (tokens p)
  /-- Some items, and a value with a colon. -/
  | target (p : Program) (v : Grammar.Value) {colon : Token} (hcolon : colon.kind = .colon) :
    IsBuiltFrom ⟨(nodes p).reverse, some (colon.span, v.node), []⟩
      (tokens p ++ v.tokens ++ [colon])
  /-- One more quotation mark. -/
  | quote {items : List (Node H)} {target : Option (Span × Node H)} {quotes : List Span}
    {ts : List Token} (h : IsBuiltFrom ⟨items, target, quotes⟩ ts) {mark : Token}
    (hmark : mark.kind = .quote) :
    IsBuiltFrom ⟨items, target, mark.span :: quotes⟩ (ts ++ [mark])

/-- The tokens that the open lists are built from, each of them up to the opening parenthesis of the
next one. -/
inductive EnclosingFrom : List (Span × Place H) → List Token → Prop where
  /-- No list is open. -/
  | nil : EnclosingFrom [] []
  /-- One more list is open. -/
  | cons {enclosing : List (Span × Place H)} {place : Place H} {ts us : List Token}
    (h : EnclosingFrom enclosing ts) (hplace : place.IsBuiltFrom us) {opening : Token}
    (hopening : opening.kind = .opening) :
    EnclosingFrom ((opening.span, place) :: enclosing) (ts ++ us ++ [opening])

/-- The latest item in a place has no type. -/
def Place.EndsPlain (place : Place H) (ts : List Token) : Prop :=
  ∃ (p : Program) (v : Grammar.Value), place.items = (nodes (p ++ [.plain v])).reverse ∧
    ts = tokens (p ++ [.plain v])

namespace Reader

/-- The tokens that a state is built from. -/
def IsBuiltFrom (r : Reader H) (ts : List Token) : Prop :=
  ∃ us vs, ts = us ++ vs ∧ EnclosingFrom r.enclosing us ∧ r.place.IsBuiltFrom vs ∧
    (r.typeable → r.place.EndsPlain vs)

lemma isBuiltFrom_start : (start : Reader H).IsBuiltFrom [] :=
  ⟨[], [], rfl, .nil, .items [], nofun⟩

variable {r r' : Reader H} {t : Token} {ts us vs : List Token}

/-- A whole value ends the place where it goes. -/
lemma exists_fill_of_isBuiltFrom {place : Place H} (h : place.IsBuiltFrom vs)
    (enclosing : List (Span × Place H)) (typeable : Bool) (v : Grammar.Value) :
    ∃ place' typeable', fill ⟨place, enclosing, typeable⟩ v.node = ⟨place', enclosing, typeable'⟩ ∧
      place'.IsBuiltFrom (vs ++ v.tokens) ∧
      (typeable' → place'.EndsPlain (vs ++ v.tokens)) := by
  induction h generalizing v with
  | items p =>
    have hitems : v.node :: (nodes p).reverse = (nodes (H := H) (p ++ [.plain v])).reverse := by
      rw [Grammar.nodes_concat, List.reverse_concat]
      rfl
    have htokens : tokens p ++ v.tokens = tokens (p ++ [.plain v]) :=
      (Grammar.tokens_concat p (.plain v)).symm
    refine ⟨⟨v.node :: (nodes p).reverse, none, []⟩, true, rfl, ?_,
      fun _ => ⟨p, v, hitems, htokens⟩⟩
    rw [htokens, hitems]
    exact .items _
  | @target p w colon hcolon =>
    have hitems : w.node.withType v.node.withoutTypes :: (nodes p).reverse =
        (nodes (H := H) (p ++ [.annotated w colon hcolon v])).reverse := by
      rw [Grammar.nodes_concat, List.reverse_concat]
      rfl
    have htokens : tokens p ++ w.tokens ++ [colon] ++ v.tokens =
        tokens (p ++ [.annotated w colon hcolon v]) := by
      simp [Grammar.tokens_concat, Grammar.Typed.tokens]
    refine ⟨⟨w.node.withType v.node.withoutTypes :: (nodes p).reverse, none, []⟩, false, rfl, ?_,
      nofun⟩
    rw [htokens, hitems]
    exact .items _
  | @quote items target quotes ts h mark hmark ih =>
    -- the value goes under the quotation mark first
    obtain ⟨place', typeable', hfill, hplace, hplain⟩ := ih (.quoted mark hmark v)
    rw [← quote_node] at hfill
    rw [List.append_assoc]
    exact ⟨place', typeable', hfill, hplace, hplain⟩

lemma isBuiltFrom_fill (henclosing : EnclosingFrom r.enclosing us)
    (hplace : r.place.IsBuiltFrom vs) (v : Grammar.Value) :
    (r.fill v.node).IsBuiltFrom (us ++ vs ++ v.tokens) := by
  obtain ⟨place, enclosing, typeable⟩ := r
  obtain ⟨place', typeable', hfill, hplace', hplain⟩ :=
    exists_fill_of_isBuiltFrom hplace enclosing typeable v
  rw [hfill]
  exact ⟨us, vs ++ v.tokens, List.append_assoc .., henclosing, hplace', hplain⟩

/-- A token that starts a value goes behind the tokens of the place. -/
lemma IsBuiltFrom.stepValue (h : r.IsBuiltFrom ts)
    (hstep : stepValue { r with typeable := false } t = .ok r') : r'.IsBuiltFrom (ts ++ [t]) := by
  obtain ⟨us, vs, rfl, henclosing, hplace, -⟩ := h
  obtain ⟨-, ⟨ht, rfl⟩ | ⟨ht, rfl⟩ | ⟨⟨ht, hname⟩, rfl⟩ | ⟨ht, rfl⟩ | ⟨ht, rfl⟩⟩ :=
    of_stepValue_eq_ok hstep
  · exact isBuiltFrom_fill henclosing hplace (.atom t ht)
  · exact isBuiltFrom_fill henclosing hplace (.str t ht)
  · exact isBuiltFrom_fill henclosing hplace (.keyword t ht hname)
  · exact ⟨us, vs ++ [t], List.append_assoc .., henclosing, hplace.quote ht, nofun⟩
  · exact ⟨us ++ vs ++ [t], [], (List.append_nil _).symm, henclosing.cons hplace ht, .items [],
      nofun⟩

lemma IsBuiltFrom.step (h : r.IsBuiltFrom ts) (hstep : r.step t = .ok r') :
    r'.IsBuiltFrom (ts ++ [t]) := by
  unfold Reader.step at hstep
  split at hstep
  next value items ht htypeable hplace =>
    obtain rfl := Except.ok.inj hstep
    obtain ⟨us, vs, rfl, henclosing, -, hplain⟩ := h
    obtain ⟨p, v, hitems, rfl⟩ := hplain htypeable
    rw [hplace, Grammar.nodes_concat, List.reverse_concat] at hitems
    obtain ⟨rfl, rfl⟩ := List.cons.inj hitems
    refine ⟨us, tokens p ++ v.tokens ++ [t], ?_, henclosing, .target p v ht, nofun⟩
    simp [Grammar.tokens_concat, Grammar.Typed.tokens]
  next items opening outside enclosing ht hplace henclosing' =>
    obtain rfl := Except.ok.inj hstep
    obtain ⟨us, vs, rfl, henclosing, hbuilt, -⟩ := h
    rw [hplace] at hbuilt
    rw [henclosing'] at henclosing
    cases hbuilt with
    | items p =>
      cases henclosing with
      | @cons _ _ us us' hlists houtside opening hopening =>
        have hnode : (.list (nodes p).reverse.reverse (some ⟨opening.span.start, t.span.stop⟩)) =
            ((Grammar.Value.list opening hopening p t ht).node : Node H) := by
          rw [List.reverse_reverse]
          rfl
        rw [hnode]
        have hfill := isBuiltFrom_fill (r := ⟨outside, enclosing, false⟩) hlists houtside
          (.list opening hopening p t ht)
        simpa [Grammar.Value.tokens] using hfill
  next => exact h.stepValue hstep

/-- A token is refused for other reasons than that a list is not closed. -/
lemma step_ne_unclosedList {span : Option Span} {hint : Option Hint} :
    r.step t ≠ .error (.grammar .unclosedList span hint) := by
  intro h
  unfold Reader.step Reader.stepValue at h
  repeat' split at h
  all_goals cases h

/-- What has been read is in the state. -/
theorem isBuiltFrom_of_run (h : start.run ts = .ok r) : r.IsBuiltFrom ts := by
  induction ts using List.reverseRecOn generalizing r with
  | nil =>
    obtain rfl := Except.ok.inj h
    exact isBuiltFrom_start
  | append_singleton ts t ih =>
    obtain ⟨r₁, hr₁, hstep⟩ := run_concat_eq_ok_iff.1 h
    exact (ih hr₁).step hstep

/-- When the tokens end in the sequence of a list, then the items of the sequence are what stands
behind the opening parenthesis of the list. -/
lemma IsBuiltFrom.exists_of_enclosing_eq_cons (h : r.IsBuiltFrom ts) (hquotes : r.place.quotes = [])
    (htarget : r.place.target = none) {opening : Span} {outside : Place H}
    {enclosing : List (Span × Place H)}
    (henclosing : r.enclosing = (opening, outside) :: enclosing) :
    ∃ (before : List Token) (t : Token) (p : Program), ts = before ++ t :: tokens p ∧
      t.kind = .opening ∧ t.span = opening ∧ r.place.items.reverse = nodes p := by
  obtain ⟨us, vs, rfl, hlists, hplace, -⟩ := h
  obtain ⟨⟨items, target, quotes⟩, lists, typeable⟩ := r
  obtain rfl : quotes = [] := hquotes
  obtain rfl : target = none := htarget
  obtain rfl : lists = _ := henclosing
  cases hplace with
  | items p =>
    cases hlists with
    | @cons _ _ us us' _ _ opening hopening =>
      exact ⟨us ++ us', opening, p, by simp, hopening, rfl, List.reverse_reverse _⟩

end Reader

/-- A source with an unclosed list fails at the opening parenthesis of the list, and the items
behind the parenthesis decide about the hint. -/
theorem exists_of_read_eq_unclosedList {source : String} {span : Option Span} {hint : Option Hint}
    (h : read (H := H) source = .error (.grammar .unclosedList span hint)) :
    ∃ (before : List Token) (opening : Token) (p : Program),
      lex source = .ok (before ++ opening :: tokens p) ∧ opening.kind = .opening ∧
        span = some opening.span ∧
        hint = Hint.ofUnclosed source.toList (nodes p : List (Node H)) := by
  obtain ⟨ts, hts⟩ : ∃ ts, lex source = .ok ts := Token.exists_scanFrom_eq_ok 0 source.toList
  rw [read, hts] at h
  replace h : ((Reader.start : Reader H).run ts).bind (Reader.finish source.toList) =
    .error (.grammar .unclosedList span hint) := h
  cases hrun : (Reader.start : Reader H).run ts with
  | error e =>
    rw [hrun] at h
    obtain rfl : e = _ := Except.error.inj h
    obtain ⟨before, t, after, r, -, -, hstep⟩ := Reader.exists_of_run_eq_error hrun
    exact absurd hstep Reader.step_ne_unclosedList
  | ok r =>
    rw [hrun] at h
    replace h : r.finish source.toList = .error (.grammar .unclosedList span hint) := h
    unfold Reader.finish at h
    split at h
    · cases h
    · cases h
    · next opening outside enclosing hquotes htarget henclosing =>
      obtain ⟨before, t, p, rfl, hopening, rfl, hitems⟩ :=
        (Reader.isBuiltFrom_of_run hrun).exists_of_enclosing_eq_cons hquotes htarget henclosing
      obtain ⟨-, rfl, rfl⟩ := Error.grammar.inj (Except.error.inj h)
      exact ⟨before, t, p, hts, hopening, rfl, by rw [hitems]⟩
    · cases h

end TypedLisp
