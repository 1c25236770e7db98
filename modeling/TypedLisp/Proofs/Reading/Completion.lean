import Mathlib
import TypedLisp.Proofs.Reading.Derivation
import TypedLisp.Proofs.Text

/-!
# Where reading fails

The reader takes tokens for as long as they are the start of some program: whatever state it is in,
an atom and then one closing parenthesis for each open list complete what it has read, unless
the nesting leaves no room for the atom.  So a token is refused only if no program goes on with it,
and an error is put at the first such token.

When the tokens end too early, the last of them tells what is missing: behind a colon there is a
type missing, behind a quotation mark a value, and otherwise the innermost open list is not closed.
-/

namespace TypedLisp

variable {H : Type}

namespace Grammar

/-- Some tokens can be completed if they are the first ones of a program. -/
def IsCompletable (ts : List Token) : Prop :=
  ∃ p : Program, ts <+: tokens p ∧ depth p ≤ maxNesting

/-- The opening parentheses that are still open after a token, if they were `opens` before it; the
innermost one comes first. -/
def opensAfter (opens : List Token) (t : Token) : List Token :=
  match t.kind with
  | .opening => t :: opens
  | .closing => opens.tail
  | _ => opens

/-- The opening parentheses among some tokens that are still open after them, the innermost one
first. -/
def opens (ts : List Token) : List Token := ts.foldl opensAfter []

lemma opens_concat (ts : List Token) (t : Token) :
    opens (ts ++ [t]) = opensAfter (opens ts) t := by
  rw [opens, List.foldl_append]
  rfl

/-- The place where the tokens `ts` of a source stop being the start of a program, or where they
show that there is more to come. -/
inductive FailsAt (source : String) (ts : List Token) : Span → Prop where
  /-- The first token with which the tokens cannot be completed any more. -/
  | token {before after : List Token} {t : Token} (hts : ts = before ++ t :: after)
    (hbefore : IsCompletable before) (ht : ¬ IsCompletable (before ++ [t])) :
    FailsAt source ts t.span
  /-- The colon at the end, whose type is missing. -/
  | colon {before : List Token} {t : Token} (hts : ts = before ++ [t]) (h : IsCompletable ts)
    (ht : t.kind = .colon) : FailsAt source ts t.span
  /-- The end of the source, since the value is missing behind the quotation mark there. -/
  | quote {before : List Token} {t : Token} (hts : ts = before ++ [t]) (h : IsCompletable ts)
    (ht : t.kind = .quote) : FailsAt source ts (.point source.utf8ByteSize)
  /-- The innermost opening parenthesis that is still open. -/
  | unclosed {before : List Token} {t : Token} (hts : ts = before ++ [t]) (h : IsCompletable ts)
    (hcolon : t.kind ≠ .colon) (hquote : t.kind ≠ .quote) {opening : Token} {outer : List Token}
    (hopens : opens ts = opening :: outer) : FailsAt source ts opening.span

end Grammar

open Grammar (IsCompletable opens opensAfter FailsAt)

namespace Reader

/-! ### What a token does to the state -/

/-- How the state behind a token follows from the one before it. -/
inductive Takes (r : Reader H) (t : Token) : Reader H → Prop where
  | colon (ht : t.kind = .colon) (items : List (Node H)) (target : Node H) :
    Takes r t (behindColon items t.span target r.enclosing)
  | closing (ht : t.kind = .closing) {opening : Span} {outside : Place H}
    {enclosing : List (Span × Place H)} (h : r.enclosing = (opening, outside) :: enclosing)
    (items : List (Node H)) (typeable : Bool) : Takes r t (inSequence items enclosing typeable)
  | opening (ht : t.kind = .opening) : Takes r t (r.inList t.span)
  | quote (ht : t.kind = .quote) : Takes r t (r.behindQuote t.span)
  | leaf (ht : t.kind = .atom ∨ t.kind = .str ∨ t.kind = .keyword) (items : List (Node H))
    (typeable : Bool) : Takes r t (inSequence items r.enclosing typeable)

/-- A whole value ends its place. -/
lemma exists_fill_eq_inSequence (r : Reader H) (value : Node H) :
    ∃ items typeable, r.fill value = inSequence items r.enclosing typeable := by
  rw [fill]
  split
  · exact ⟨_, true, rfl⟩
  · exact ⟨_, false, rfl⟩

variable {r r' : Reader H} {t : Token} {ts : List Token} {e : Error}

lemma takes_of_stepValue_eq_ok (h : stepValue { r with typeable := false } t = .ok r') :
    r.Takes t r' := by
  have hleaf (ht : t.kind = .atom ∨ t.kind = .str ∨ t.kind = .keyword) (value : Node H) :
      r.Takes t (r.fill value) := by
    obtain ⟨items, typeable, hfill⟩ := r.exists_fill_eq_inSequence value
    rw [hfill]
    exact .leaf ht items typeable
  obtain ⟨-, ⟨ht, rfl⟩ | ⟨ht, rfl⟩ | ⟨⟨ht, -⟩, rfl⟩ | ⟨ht, rfl⟩ | ⟨ht, rfl⟩⟩ :=
    of_stepValue_eq_ok h
  · exact hleaf (.inl ht) _
  · exact hleaf (.inr (.inl ht)) _
  · exact hleaf (.inr (.inr ht)) _
  · exact .quote ht
  · exact .opening ht

lemma takes_of_step_eq_ok (h : r.step t = .ok r') : r.Takes t r' := by
  unfold step at h
  split at h
  next value items ht _ hplace =>
    obtain rfl := Except.ok.inj h
    exact .colon ht items value
  next items opening outside enclosing ht hplace henclosing =>
    obtain rfl := Except.ok.inj h
    obtain ⟨items', typeable, hfill⟩ := exists_fill_eq_inSequence ⟨outside, enclosing, false⟩
      (.list items.reverse (some ⟨opening.start, t.span.stop⟩))
    rw [hfill]
    exact .closing ht henclosing items' typeable
  next => exact takes_of_stepValue_eq_ok h

lemma exists_of_stepValue_eq_error (h : r.stepValue t = .error e) :
    ∃ cause, e = .grammar cause (some t.span) none := by
  unfold stepValue at h
  repeat' split at h
  all_goals first
    | obtain rfl := Except.error.inj h
      exact ⟨_, rfl⟩
    | cases h

/-- A token that is refused is the place of the error. -/
lemma exists_of_step_eq_error (h : r.step t = .error e) :
    ∃ cause, e = .grammar cause (some t.span) none := by
  unfold step at h
  split at h
  · exact nomatch h
  · exact nomatch h
  · exact exists_of_stepValue_eq_error h

/-! ### Runs -/

/-- A run that fails does so at its first token that is refused. -/
lemma exists_of_run_eq_error (h : r.run ts = .error e) :
    ∃ before t after r', ts = before ++ t :: after ∧ r.run before = .ok r' ∧
      r'.step t = .error e := by
  induction ts generalizing r with
  | nil => exact nomatch h
  | cons t ts ih =>
    rw [run_cons] at h
    cases hstep : r.step t with
    | error e' =>
      rw [hstep] at h
      obtain rfl : e' = e := Except.error.inj h
      exact ⟨[], t, ts, r, rfl, rfl, hstep⟩
    | ok r₁ =>
      rw [hstep] at h
      obtain ⟨before, u, after, r', rfl, hbefore, hu⟩ := ih h
      refine ⟨t :: before, u, after, r', rfl, ?_, hu⟩
      rw [run_cons, hstep]
      exact hbefore

lemma run_concat_eq_ok_iff :
    r.run (ts ++ [t]) = .ok r' ↔ ∃ r₁, r.run ts = .ok r₁ ∧ r₁.step t = .ok r' := by
  rw [run_append]
  constructor
  · intro h
    obtain ⟨r₁, hr₁, h⟩ := Except.exists_of_bind_eq_ok h
    obtain ⟨r₂, hr₂, h⟩ := exists_of_run_cons_eq_ok h
    obtain rfl := Except.ok.inj h
    exact ⟨r₁, hr₁, hr₂⟩
  · rintro ⟨r₁, hr₁, hr'⟩
    rw [hr₁, Except.bind, run_cons, hr']
    rfl

/-- The open lists of a state are those whose parentheses are open in the tokens before it. -/
lemma map_enclosing_of_run (h : start.run ts = .ok r) :
    r.enclosing.map Prod.fst = (opens ts).map Token.span := by
  induction ts using List.reverseRecOn generalizing r with
  | nil =>
    obtain rfl := Except.ok.inj h
    rfl
  | append_singleton ts t ih =>
    obtain ⟨r₁, hr₁, hr⟩ := run_concat_eq_ok_iff.1 h
    have hopens := ih hr₁
    rw [Grammar.opens_concat, opensAfter]
    cases takes_of_step_eq_ok hr with
    | colon ht items target => simpa [ht, behindColon] using hopens
    | closing ht henclosing items typeable =>
      rw [henclosing] at hopens
      simp only [ht, List.map_tail]
      rw [← hopens]
      rfl
    | opening ht => simpa [ht, inList, inSequence] using hopens
    | quote ht => simpa [ht, behindQuote] using hopens
    | leaf ht items typeable => rcases ht with ht | ht | ht <;> simpa [ht, inSequence] using hopens

/-! ### Completing what has been read -/

/-- Parentheses close all lists that are open around a sequence. -/
lemma exists_run_closings (closing : Token) (hclosing : closing.kind = .closing)
    (items : List (Node H)) (enclosing : List (Span × Place H)) (typeable : Bool) :
    ∃ items' typeable', (inSequence items enclosing typeable).run
      (List.replicate enclosing.length closing) = .ok (inSequence items' [] typeable') := by
  induction enclosing generalizing items typeable with
  | nil => exact ⟨items, typeable, rfl⟩
  | cons p enclosing ih =>
    obtain ⟨opening, outside⟩ := p
    obtain ⟨items₁, typeable₁, hfill⟩ := exists_fill_eq_inSequence ⟨outside, enclosing, false⟩
      (.list items.reverse (some ⟨opening.start, closing.span.stop⟩))
    have hstep := step_closing (r := ⟨outside, enclosing, false⟩) hclosing items opening typeable
    obtain ⟨items', typeable', hrun⟩ := ih items₁ typeable₁
    refine ⟨items', typeable', ?_⟩
    rw [List.length_cons, List.replicate_succ, run_cons, hstep, hfill]
    exact hrun

/-- What has been read is the start of a program as long as there is room for a value. -/
theorem isCompletable_of_run (h : (start : Reader H).run ts = .ok r) (hr : r.depth < maxNesting) :
    IsCompletable ts := by
  let value : Token := ⟨.atom, "a", .point 0⟩
  let closing : Token := ⟨.closing, ")", .point 0⟩
  obtain ⟨items, typeable, hfill⟩ :=
    r.exists_fill_eq_inSequence (.atom value.text (some value.span))
  obtain ⟨items', typeable', hclosings⟩ :=
    exists_run_closings closing rfl items r.enclosing typeable
  have hrun : (start : Reader H).run
      (ts ++ value :: List.replicate r.enclosing.length closing) =
        .ok (inSequence items' [] typeable') := by
    rw [run_append, h, Except.bind, run_cons, step_atom rfl hr, hfill]
    exact hclosings
  have hread : readTokens (ts ++ value :: List.replicate r.enclosing.length closing) "" =
      .ok items'.reverse := by
    have hdone : (inSequence items' [] typeable').IsDone := ⟨rfl, rfl, rfl⟩
    show (start.run _).bind _ = _
    rw [hrun, Except.bind]
    exact finish_eq_ok_iff.2 ⟨hdone, rfl⟩
  obtain ⟨p, hp, hdepth, -⟩ := readTokens_eq_ok_iff.1 hread
  exact ⟨p, hp ▸ List.prefix_append _ _, hdepth⟩

/-- The start of a program is read. -/
theorem exists_run_of_isCompletable (h : IsCompletable ts) :
    ∃ r, (start : Reader H).run ts = .ok r := by
  obtain ⟨p, ⟨more, hmore⟩, hdepth⟩ := h
  have hstart : (inSequence ([] : List (Node H)) [] false).depth = 0 := rfl
  obtain ⟨typeable, hrun⟩ := run_program (H := H) p [] [] false (by omega)
  rw [← hmore, run_append] at hrun
  obtain ⟨r, hr, -⟩ := Except.exists_of_bind_eq_ok hrun
  exact ⟨r, hr⟩

/-- A token that is refused cannot be completed. -/
lemma not_isCompletable_of_step_eq_error (h : (start : Reader H).run ts = .ok r)
    (hstep : r.step t = .error e) : ¬ IsCompletable (ts ++ [t]) := by
  intro hcompletable
  obtain ⟨r', hr'⟩ := exists_run_of_isCompletable (H := H) hcompletable
  obtain ⟨r₁, hr₁, hstep'⟩ := run_concat_eq_ok_iff.1 hr'
  obtain rfl := Except.ok.inj (h.symm.trans hr₁)
  rw [hstep] at hstep'
  exact nomatch hstep'

/-- A period without a name is not in any program. -/
lemma not_isCompletable_lonePeriod (ht : t.kind = .keyword) (htext : t.text = ".") :
    ¬ IsCompletable (ts ++ [t]) := by
  intro h
  obtain ⟨r, hr⟩ := exists_run_of_isCompletable (H := Empty) h
  obtain ⟨r₁, -, hstep⟩ := run_concat_eq_ok_iff.1 hr
  rw [step_of_starts (by simp [Grammar.Starts, ht])] at hstep
  have hkind {k : TokenKind} (hne : k ≠ .keyword) : t.kind ≠ k := fun h => hne (h.symm.trans ht)
  rcases (of_stepValue_eq_ok hstep).2 with ⟨h, -⟩ | ⟨h, -⟩ | ⟨⟨-, hname⟩, -⟩ | ⟨h, -⟩ | ⟨h, -⟩
  case inr.inr.inl => exact hname (by rw [keywordName, htext]; rfl)
  all_goals exact hkind (by decide) h

/-! ### The place of an error -/

/-- As far as the reader gets with some tokens, there are never `maxNesting` lists and quotation
marks open inside each other. -/
def StaysShallow (H : Type) (ts : List Token) : Prop :=
  ∀ before after (r : Reader H), ts = before ++ after → start.run before = .ok r →
    r.depth < maxNesting

/-- The depth of a state is that of the sequence it is in and that of the quotation marks there. -/
lemma depth_eq (r : Reader H) :
    r.depth = (inSequence [] r.enclosing false).depth + r.place.quotes.length := by
  have h := foldl_depth r.enclosing 0 r.place.quotes.length
  rwa [Nat.zero_add] at h

lemma depth_inSequence_cons (items : List (Node H)) (p : Span × Place H)
    (enclosing : List (Span × Place H)) (typeable : Bool) :
    (inSequence items (p :: enclosing) typeable).depth =
      (inSequence items enclosing typeable).depth + (p.2.quotes.length + 1) := by
  have h := foldl_depth enclosing 0 (p.2.quotes.length + 1)
  rwa [← Nat.add_assoc] at h

/-- A token goes into one more list or quotation mark at most. -/
lemma Takes.depth_le (h : r.Takes t r') : r'.depth ≤ r.depth + 1 := by
  have hr := r.depth_eq
  cases h with
  | colon ht items target =>
    rw [depth_behindColon _ _ _ _ false, depth_inSequence items [] _ false false]
    omega
  | closing ht henclosing items typeable =>
    rw [henclosing, depth_inSequence_cons] at hr
    rw [depth_inSequence items [] _ typeable false]
    omega
  | opening ht => rw [depth_inList]
  | quote ht => rw [depth_behindQuote]
  | leaf ht items typeable =>
    rw [depth_inSequence items [] _ typeable false]
    omega

lemma depth_le_length_of_run (h : (start : Reader H).run ts = .ok r) : r.depth ≤ ts.length := by
  induction ts using List.reverseRecOn generalizing r with
  | nil =>
    obtain rfl := Except.ok.inj h
    exact Nat.le_refl 0
  | append_singleton ts t ih =>
    obtain ⟨r₁, hr₁, hr⟩ := run_concat_eq_ok_iff.1 h
    have hle := (takes_of_step_eq_ok hr).depth_le
    have hr₁ := ih hr₁
    rw [List.length_append, List.length_singleton]
    omega

/-- With few tokens there is no need to look at the nesting. -/
lemma staysShallow_of_length_lt (h : ts.length < maxNesting) : StaysShallow H ts := by
  rintro before after r rfl hrun
  have hr := depth_le_length_of_run hrun
  rw [List.length_append] at h
  omega

/-- When the tokens end with something open, the last token says where the error is. -/
lemma failsAt_of_finish_eq_error {source : String} (h : (start : Reader H).run ts = .ok r)
    (hcompletable : IsCompletable ts) (hfinish : r.finish source.toList = .error e) :
    ∃ cause span hint, e = .grammar cause (some span) hint ∧ FailsAt source ts span := by
  obtain rfl | ⟨before, t, rfl⟩ := List.eq_nil_or_concat' ts
  · obtain rfl := Except.ok.inj h
    cases hfinish
  obtain ⟨r₁, -, hstep⟩ := run_concat_eq_ok_iff.1 h
  have hlast := takes_of_step_eq_ok hstep
  -- with nothing begun behind its items, the sequence is that of a list
  have hunclosed (hcolon : t.kind ≠ .colon) (hquote : t.kind ≠ .quote)
      (hquotes : r.place.quotes = []) (htarget : r.place.target = none) :
      ∃ cause span hint, e = .grammar cause (some span) hint ∧
        FailsAt source (before ++ [t]) span := by
    have hopens := map_enclosing_of_run h
    rw [finish, hquotes, htarget] at hfinish
    cases henclosing : r.enclosing with
    | nil =>
      rw [henclosing] at hfinish
      cases hfinish
    | cons p enclosing =>
      rw [henclosing] at hfinish hopens
      cases hts : opens (before ++ [t]) with
      | nil => simp [hts] at hopens
      | cons opening outer =>
        rw [hts] at hopens
        obtain ⟨hspan, -⟩ := List.cons.inj hopens
        refine ⟨_, _, _, (Except.error.inj hfinish).symm, ?_⟩
        rw [hspan]
        exact .unclosed rfl hcompletable hcolon hquote hts
  cases hlast with
  | colon ht items target =>
    exact ⟨_, _, _, (Except.error.inj hfinish).symm, .colon rfl hcompletable ht⟩
  | quote ht =>
    refine ⟨_, _, _, (Except.error.inj hfinish).symm, ?_⟩
    rw [Text.width_toList]
    exact .quote rfl hcompletable ht
  | closing ht henclosing items typeable =>
    exact hunclosed (by simp [ht]) (by simp [ht]) rfl rfl
  | opening ht => exact hunclosed (by simp [ht]) (by simp [ht]) rfl rfl
  | leaf ht items typeable =>
    rcases ht with ht | ht | ht <;> exact hunclosed (by simp [ht]) (by simp [ht]) rfl rfl

end Reader

/-- **Errors are at the first token that cannot be there.**  The tokens of a source that is not
read, and whose lists and quotation marks do not lie too deep, show where the error is: at the first
token with which they cannot be completed to a program, or else where something is missing at their
end.  A period without a name cannot be there. -/
theorem failsAt_of_read_eq_error {source : String} {e : Error}
    (h : read (H := H) source = .error e) :
    ∃ tokens, lex source = .ok tokens ∧
      (Reader.StaysShallow H tokens →
        ∃ cause span hint, e = .grammar cause (some span) hint ∧ FailsAt source tokens span) ∧
      ∀ before t, t.kind = .keyword → t.text = "." → ¬ IsCompletable (before ++ [t]) := by
  obtain ⟨tokens, htokens⟩ : ∃ tokens, lex source = .ok tokens :=
    Token.exists_scanFrom_eq_ok 0 source.toList
  refine ⟨tokens, htokens, fun hshallow => ?_,
    fun _ _ => Reader.not_isCompletable_lonePeriod⟩
  rw [read, htokens] at h
  replace h : ((Reader.start : Reader H).run tokens).bind (Reader.finish source.toList) =
    .error e := h
  cases hrun : (Reader.start : Reader H).run tokens with
  | error e' =>
    rw [hrun] at h
    obtain rfl : e' = e := Except.error.inj h
    obtain ⟨before, t, after, r, rfl, hbefore, hstep⟩ := Reader.exists_of_run_eq_error hrun
    obtain ⟨cause, rfl⟩ := Reader.exists_of_step_eq_error hstep
    refine ⟨cause, t.span, none, rfl, .token rfl ?_ ?_⟩
    · exact Reader.isCompletable_of_run hbefore (hshallow before _ r rfl hbefore)
    · exact Reader.not_isCompletable_of_step_eq_error hbefore hstep
  | ok r =>
    rw [hrun] at h
    have hdepth : r.depth < maxNesting := hshallow tokens [] r (by simp) hrun
    exact Reader.failsAt_of_finish_eq_error hrun (Reader.isCompletable_of_run hrun hdepth) h

/-- In `(a '(b)` the inner list is closed, so that the first parenthesis is the one to blame. -/
theorem failsAt_of_read_eq_error_unclosed :
    ∃ tokens, lex "(a '(b)" = .ok tokens ∧ FailsAt "(a '(b)" tokens ⟨0, 1⟩ := by
  have hread : read (H := Empty) "(a '(b)" =
      .error (.grammar .unclosedList (some ⟨0, 1⟩) none) := by cbv
  have hlength : (lex "(a '(b)").map List.length = .ok 6 := by cbv
  obtain ⟨tokens, htokens, hfails, -⟩ := failsAt_of_read_eq_error hread
  rw [htokens] at hlength
  have hlt : tokens.length < maxNesting := Except.ok.inj hlength ▸ (by decide)
  obtain ⟨cause, span, hint, heq, hspan⟩ := hfails (Reader.staysShallow_of_length_lt hlt)
  obtain rfl : ⟨0, 1⟩ = span := Option.some.inj (Error.grammar.inj heq).2.1
  exact ⟨tokens, htokens, hspan⟩

end TypedLisp
