import TypedLisp.Proofs.Except
import TypedLisp.Proofs.Reading.Grammar
import TypedLisp.Proofs.Reading.Lexing

/-!
# Reading and deriving

The reader answers on the sequences of tokens that have a derivation in which values are not nested
too deep, and its answer is the nodes of the derivation.  In one direction, reading the tokens of a
value puts its node in the place where the reader is.  In the other, a run that ends with nothing
open goes through a whole value from each place where it starts one.
-/

namespace TypedLisp

variable {H : Type}

namespace Reader

open Grammar (Starts)

/-- The state after some tokens. -/
def run (r : Reader H) (ts : List Token) : Except Error (Reader H) :=
  ts.foldlM step r

@[simp] lemma run_nil (r : Reader H) : r.run [] = .ok r := rfl

@[simp] lemma run_cons (r : Reader H) (t : Token) (ts : List Token) :
    r.run (t :: ts) = (r.step t).bind fun r => r.run ts := List.foldlM_cons

lemma run_append (r : Reader H) (ts us : List Token) :
    r.run (ts ++ us) = (r.run ts).bind fun r => r.run us := List.foldlM_append

lemma exists_of_run_cons_eq_ok {r r' : Reader H} {t : Token} {ts : List Token}
    (h : r.run (t :: ts) = .ok r') : ∃ r₁, r.step t = .ok r₁ ∧ r₁.run ts = .ok r' := by
  rw [run_cons] at h
  cases hstep : r.step t with
  | error e => simp [hstep, Except.bind] at h
  | ok r₁ => exact ⟨r₁, rfl, by simpa [hstep, Except.bind] using h⟩

/-! ### Places -/

/-- The state in a sequence with nothing begun behind its items, the latest of which comes first. -/
def inSequence (items : List (Node H)) (enclosing : List (Span × Place H)) (typeable : Bool) :
    Reader H :=
  ⟨⟨items, none, []⟩, enclosing, typeable⟩

/-- The state behind the colon of an item. -/
def behindColon (items : List (Node H)) (colon : Span) (target : Node H)
    (enclosing : List (Span × Place H)) : Reader H :=
  ⟨⟨items, some (colon, target), []⟩, enclosing, false⟩

/-- The state behind the opening parenthesis of a list. -/
def inList (r : Reader H) (opening : Span) : Reader H :=
  inSequence [] ((opening, r.place) :: r.enclosing) false

/-- The state behind a quotation mark. -/
def behindQuote (r : Reader H) (mark : Span) : Reader H :=
  ⟨{ r.place with quotes := mark :: r.place.quotes }, r.enclosing, false⟩

lemma foldl_depth (enclosing : List (Span × Place H)) (m n : Nat) :
    enclosing.foldl (fun n p => n + p.2.quotes.length + 1) (m + n) =
      enclosing.foldl (fun n p => n + p.2.quotes.length + 1) m + n := by
  induction enclosing generalizing m with
  | nil => rfl
  | cons p enclosing ih =>
    have h : m + n + p.2.quotes.length + 1 = m + p.2.quotes.length + 1 + n := by omega
    rw [List.foldl_cons, List.foldl_cons, h, ih]

@[simp] lemma depth_inList (r : Reader H) (opening : Span) :
    (r.inList opening).depth = r.depth + 1 := by
  simp [depth, inList, inSequence, foldl_depth]

@[simp] lemma depth_behindQuote (r : Reader H) (mark : Span) :
    (r.behindQuote mark).depth = r.depth + 1 := by
  simp [depth, behindQuote, foldl_depth]

lemma depth_behindColon (items : List (Node H)) (colon : Span) (target : Node H)
    (enclosing : List (Span × Place H)) (typeable : Bool) :
    (behindColon items colon target enclosing).depth =
      (inSequence items enclosing typeable).depth := rfl

lemma depth_inSequence (items items' : List (Node H)) (enclosing : List (Span × Place H))
    (typeable typeable' : Bool) :
    (inSequence items enclosing typeable).depth = (inSequence items' enclosing typeable').depth :=
  rfl

@[simp] lemma fill_inSequence (items : List (Node H)) (enclosing : List (Span × Place H))
    (typeable : Bool) (n : Node H) :
    (inSequence items enclosing typeable).fill n = inSequence (n :: items) enclosing true := rfl

/-! ### Steps -/

/-- A token that starts a value is read as the start of one. -/
lemma step_of_starts {t : Token} (h : Starts t.kind) (r : Reader H) :
    r.step t = stepValue { r with typeable := false } t := by
  unfold step
  split <;> simp_all [Starts]

section Start

variable {t : Token} {r : Reader H}

lemma stepValue_of_depth_lt (hr : r.depth < maxNesting) :
    stepValue { r with typeable := false } t =
      match t.kind with
      | .opening => .ok (r.inList t.span)
      | .quote => .ok (r.behindQuote t.span)
      | .atom => .ok (r.fill (.atom t.text (some t.span)))
      | .str => .ok (r.fill (stringNode t))
      | .keyword =>
        if keywordName t = "" then .error (.grammar .lonePeriod (some t.span) none)
        else .ok (r.fill (.keyword (keywordName t) (some t.span)))
      | .closing => .error (.grammar .closingForValue (some t.span) none)
      | .colon => .error (.grammar .colonForValue (some t.span) none) :=
  if_neg (Nat.not_le.2 hr)

lemma step_atom (ht : t.kind = .atom) (hr : r.depth < maxNesting) :
    r.step t = .ok (r.fill (.atom t.text (some t.span))) := by
  rw [step_of_starts (by simp [Starts, ht]), stepValue_of_depth_lt hr, ht]

lemma step_str (ht : t.kind = .str) (hr : r.depth < maxNesting) :
    r.step t = .ok (r.fill (stringNode t)) := by
  rw [step_of_starts (by simp [Starts, ht]), stepValue_of_depth_lt hr, ht]

lemma step_keyword (ht : t.kind = .keyword) (hname : keywordName t ≠ "")
    (hr : r.depth < maxNesting) :
    r.step t = .ok (r.fill (.keyword (keywordName t) (some t.span))) := by
  rw [step_of_starts (by simp [Starts, ht]), stepValue_of_depth_lt hr, ht]
  exact if_neg hname

lemma step_quote (ht : t.kind = .quote) (hr : r.depth < maxNesting) :
    r.step t = .ok (r.behindQuote t.span) := by
  rw [step_of_starts (by simp [Starts, ht]), stepValue_of_depth_lt hr, ht]

lemma step_opening (ht : t.kind = .opening) (hr : r.depth < maxNesting) :
    r.step t = .ok (r.inList t.span) := by
  rw [step_of_starts (by simp [Starts, ht]), stepValue_of_depth_lt hr, ht]

lemma step_colon (ht : t.kind = .colon) (target : Node H) (items : List (Node H))
    (enclosing : List (Span × Place H)) :
    (inSequence (target :: items) enclosing true).step t =
      .ok (behindColon items t.span target enclosing) := by
  simp [step, inSequence, behindColon, ht]

lemma step_closing (ht : t.kind = .closing) (items : List (Node H)) (opening : Span)
    (typeable : Bool) :
    (inSequence items ((opening, r.place) :: r.enclosing) typeable).step t =
      .ok (r.fill (.list items.reverse (some ⟨opening.start, t.span.stop⟩))) := by
  simp [step, inSequence, ht]
  rfl

end Start

/-! ### Reading what is derived -/

lemma quote_node (mark : Token) (hmark : mark.kind = .quote) (v : Grammar.Value) :
    quote v.node mark.span = ((Grammar.Value.quoted mark hmark v).node : Node H) := by
  have hspan := v.span_node (H := H)
  rw [quote, hspan]
  rfl

mutual

/-- Reading the tokens of a value puts its node in the place. -/
theorem run_value : ∀ (v : Grammar.Value) (r : Reader H), r.depth + v.depth ≤ maxNesting →
    r.run v.tokens = .ok (r.fill v.node)
  | .atom t ht, r, h => by
    rw [Grammar.Value.tokens, run_cons, step_atom ht (Nat.lt_of_succ_le h)]
    rfl
  | .str t ht, r, h => by
    rw [Grammar.Value.tokens, run_cons, step_str ht (Nat.lt_of_succ_le h)]
    rfl
  | .keyword t ht hname, r, h => by
    rw [Grammar.Value.tokens, run_cons, step_keyword ht hname (Nat.lt_of_succ_le h)]
    rfl
  | .quoted mark hmark v, r, h => by
    rw [Grammar.Value.depth] at h
    have hv := run_value v (r.behindQuote mark.span) (by rw [depth_behindQuote]; omega)
    rw [Grammar.Value.tokens, run_cons, step_quote hmark (by omega), ← quote_node]
    exact hv
  | .list opening hopening items closing hclosing, r, h => by
    rw [Grammar.Value.depth] at h
    obtain ⟨typeable, hitems⟩ := run_program items [] ((opening.span, r.place) :: r.enclosing) false
      (by rw [← inList, depth_inList]; omega)
    rw [Grammar.Value.tokens, run_cons, step_opening hopening (by omega), Except.bind, inList,
      run_append, hitems, Except.bind, run_cons, step_closing hclosing]
    simp [Except.bind, Grammar.Value.node]

/-- Reading the tokens of a typed value adds its node to the sequence. -/
theorem run_typed : ∀ (x : Grammar.Typed) (items : List (Node H))
    (enclosing : List (Span × Place H)) (typeable : Bool),
    (inSequence items enclosing typeable).depth + x.depth ≤ maxNesting →
    ∃ typeable', (inSequence items enclosing typeable).run x.tokens =
      .ok (inSequence (x.node :: items) enclosing typeable')
  | .plain value, items, enclosing, typeable, h => ⟨true, run_value value _ h⟩
  | .annotated value colon hcolon type, items, enclosing, typeable, h => by
    rw [Grammar.Typed.depth] at h
    have hvalue := run_value value (inSequence items enclosing typeable) (by omega)
    have htype := run_value type (behindColon items colon.span value.node enclosing)
      (by rw [depth_behindColon _ _ _ _ typeable]; omega)
    refine ⟨false, ?_⟩
    rw [Grammar.Typed.tokens, run_append, hvalue, Except.bind, run_cons, fill_inSequence,
      step_colon hcolon]
    exact htype

/-- Reading the tokens of a program adds its nodes to the sequence. -/
theorem run_program : ∀ (xs : Grammar.Program) (items : List (Node H))
    (enclosing : List (Span × Place H)) (typeable : Bool),
    (inSequence items enclosing typeable).depth + Grammar.depth xs ≤ maxNesting →
    ∃ typeable', (inSequence items enclosing typeable).run (Grammar.tokens xs) =
      .ok (inSequence ((Grammar.nodes xs).reverse ++ items) enclosing typeable')
  | [], items, enclosing, typeable, _ => ⟨typeable, rfl⟩
  | x :: xs, items, enclosing, typeable, h => by
    rw [Grammar.depth] at h
    obtain ⟨t₁, hx⟩ := run_typed x items enclosing typeable (by omega)
    obtain ⟨t₂, hxs⟩ := run_program xs (x.node :: items) enclosing t₁
      (by rw [depth_inSequence _ items _ _ typeable]; omega)
    refine ⟨t₂, ?_⟩
    rw [Grammar.tokens, run_append, hx, Except.bind, hxs, Grammar.nodes, List.reverse_cons,
      List.append_assoc]
    rfl

end

/-! ### Deriving what is read -/

/-- Nothing is open: the tokens may end here. -/
structure IsDone (r : Reader H) : Prop where
  quotes : r.place.quotes = []
  target : r.place.target = none
  enclosing : r.enclosing = []

lemma finish_eq_ok_iff {source : List Char} {r : Reader H} {forms : List (Node H)} :
    r.finish source = .ok forms ↔ r.IsDone ∧ r.place.items.reverse = forms := by
  constructor
  · intro h
    unfold finish at h
    split at h
    · exact nomatch h
    · exact nomatch h
    · exact nomatch h
    · next hquotes htarget henclosing =>
      exact ⟨⟨hquotes, htarget, henclosing⟩, Except.ok.inj h⟩
  · rintro ⟨hdone, rfl⟩
    rw [finish, hdone.quotes, hdone.target, hdone.enclosing]

/-- What it takes to read a token as the start of a value. -/
lemma of_stepValue_eq_ok {t : Token} {r r' : Reader H}
    (h : stepValue { r with typeable := false } t = .ok r') :
    r.depth < maxNesting ∧
      (t.kind = .atom ∧ r' = r.fill (.atom t.text (some t.span)) ∨
        t.kind = .str ∧ r' = r.fill (stringNode t) ∨
        (t.kind = .keyword ∧ keywordName t ≠ "") ∧
          r' = r.fill (.keyword (keywordName t) (some t.span)) ∨
        t.kind = .quote ∧ r' = r.behindQuote t.span ∨
        t.kind = .opening ∧ r' = r.inList t.span) := by
  by_cases hr : r.depth < maxNesting
  · refine ⟨hr, ?_⟩
    rw [stepValue_of_depth_lt hr] at h
    cases hk : t.kind with
    | keyword =>
      simp only [hk] at h
      split at h
      · exact nomatch h
      · next hname => simp_all
    | closing | colon => simp [hk] at h
    | atom | str | quote | opening => simp_all
  · have htooDeep : stepValue { r with typeable := false } t =
        .error (.grammar .tooDeep (some t.span) none) := if_pos (Nat.not_lt.1 hr)
    rw [htooDeep] at h
    exact nomatch h

lemma step_closing_outside {t : Token} {items : List (Node H)} {typeable : Bool} {r : Reader H}
    (ht : t.kind = .closing) : (inSequence items [] typeable).step t ≠ .ok r := by
  simp [step, inSequence, stepValue, ht, depth, maxNesting]

/-- A sequence goes on with a value unless an item is given a type or the list ends. -/
lemma step_inSequence {t : Token} (items : List (Node H)) (enclosing : List (Span × Place H))
    {typeable : Bool} (hclosing : t.kind ≠ .closing) (hcolon : typeable = true → t.kind ≠ .colon) :
    (inSequence items enclosing typeable).step t =
      stepValue { inSequence items enclosing typeable with typeable := false } t := by
  unfold step
  split <;> simp_all [inSequence]

lemma step_behindColon {t : Token} {items : List (Node H)} {colon : Span} {target : Node H}
    {enclosing : List (Span × Place H)} :
    (behindColon items colon target enclosing).step t =
      stepValue { behindColon items colon target enclosing with typeable := false } t := by
  unfold step
  split <;> simp_all [behindColon]

lemma step_behindQuote {t : Token} {r : Reader H} {mark : Span} :
    (r.behindQuote mark).step t = stepValue { r.behindQuote mark with typeable := false } t := by
  unfold step
  split <;> simp_all [behindQuote]

/-- The tokens `ts` are those of typed values up to the end of a sequence, and a run of them in the
sequence goes through the values before it ends in `r'`. -/
def GoesThrough (items : List (Node H)) (enclosing : List (Span × Place H)) (r' : Reader H)
    (ts : List Token) : Prop :=
  ∃ (xs : Grammar.Program) (rest : List Token) (typeable : Bool), ts = Grammar.tokens xs ++ rest ∧
    (inSequence items enclosing false).depth + Grammar.depth xs ≤ maxNesting ∧
    Grammar.Stops rest ∧
    (inSequence ((Grammar.nodes xs).reverse ++ items) enclosing typeable).run rest = .ok r'

section GoesThrough

variable {items : List (Node H)} {enclosing : List (Span × Place H)} {r' : Reader H}
  {ts : List Token}

lemma GoesThrough.stop {typeable : Bool} (hstops : Grammar.Stops ts)
    (hlevel : (inSequence items enclosing false).depth ≤ maxNesting)
    (hrun : (inSequence items enclosing typeable).run ts = .ok r') :
    GoesThrough items enclosing r' ts :=
  ⟨[], ts, typeable, rfl, hlevel, hstops, hrun⟩

/-- After an item, typed or not, the rest of the sequence follows. -/
lemma GoesThrough.cons {x : Grammar.Typed}
    (hx : (inSequence items enclosing false).depth + x.depth ≤ maxNesting)
    (h : GoesThrough (x.node :: items) enclosing r' ts) :
    GoesThrough items enclosing r' (x.tokens ++ ts) := by
  obtain ⟨xs, rest, typeable, rfl, hxs, hstops, hrest⟩ := h
  rw [depth_inSequence _ items _ _ false] at hxs
  refine ⟨x :: xs, rest, typeable, ?_, ?_, hstops, ?_⟩
  · rw [Grammar.tokens, List.append_assoc]
  · rw [Grammar.depth]
    omega
  · rw [Grammar.nodes, List.reverse_cons, List.append_assoc]
    exact hrest

end GoesThrough

/-- What is left after a value is shorter. -/
lemma length_lt_of_eq_tokens_append {v : Grammar.Value} {ts rest : List Token}
    (h : ts = v.tokens ++ rest) : rest.length < ts.length := by
  have hpos := v.length_tokens_pos
  rw [h, List.length_append]
  omega

mutual

/-- A run that starts a value and ends with nothing open goes through the whole value. -/
theorem exists_value (t : Token) (ts : List Token) (r r' : Reader H)
    (hstep : r.step t = stepValue { r with typeable := false } t)
    (hrun : r.run (t :: ts) = .ok r') (hdone : r'.IsDone) :
    ∃ (v : Grammar.Value) (rest : List Token), t :: ts = v.tokens ++ rest ∧
      r.depth + v.depth ≤ maxNesting ∧ (r.fill v.node).run rest = .ok r' := by
  obtain ⟨r₁, hr₁, hrun⟩ := exists_of_run_cons_eq_ok hrun
  rw [hstep] at hr₁
  obtain ⟨hdepth, ⟨ht, rfl⟩ | ⟨ht, rfl⟩ | ⟨⟨ht, hname⟩, rfl⟩ | ⟨ht, rfl⟩ | ⟨ht, rfl⟩⟩ :=
    of_stepValue_eq_ok hr₁
  · exact ⟨.atom t ht, ts, rfl, hdepth, hrun⟩
  · exact ⟨.str t ht, ts, rfl, hdepth, hrun⟩
  · exact ⟨.keyword t ht hname, ts, rfl, hdepth, hrun⟩
  · -- after a quotation mark there is a value, or something is left open
    cases ts with
    | nil =>
      obtain rfl := Except.ok.inj hrun
      exact absurd hdone.quotes (by simp [behindQuote])
    | cons u us =>
      obtain ⟨v, rest, hv, hvdepth, hrest⟩ := exists_value u us _ r' step_behindQuote hrun hdone
      rw [depth_behindQuote] at hvdepth
      refine ⟨.quoted t ht v, rest, by rw [hv]; rfl, ?_, ?_⟩
      · rw [Grammar.Value.depth]
        omega
      · rw [← quote_node]
        exact hrest
  · -- the list is closed, or it is left open
    obtain ⟨xs, rest, typeable, hts, hxs, hstops, hrest⟩ := goesThrough ts [] _ false r'
      (by rw [← inList, depth_inList]; exact hdepth) (by simp) hrun hdone
    cases rest with
    | nil =>
      obtain rfl := Except.ok.inj hrest
      exact absurd hdone.enclosing (by simp [inSequence])
    | cons closing rest =>
      have hclosing : closing.kind = .closing := hstops closing (by simp)
      rw [run_cons, step_closing hclosing] at hrest
      rw [← inList, depth_inList] at hxs
      refine ⟨.list t ht xs closing hclosing, rest, ?_, ?_, ?_⟩
      · simp [Grammar.Value.tokens, hts]
      · rw [Grammar.Value.depth]
        omega
      · simpa [Except.bind, Grammar.Value.node] using hrest
termination_by (ts.length, 1)

/-- A run in a sequence that ends with nothing open goes through typed values up to the end of the
sequence. -/
theorem goesThrough (ts : List Token) (items : List (Node H)) (enclosing : List (Span × Place H))
    (typeable : Bool) (r' : Reader H)
    (hlevel : (inSequence items enclosing false).depth ≤ maxNesting)
    (hcolon : typeable = true → Grammar.Separate ts)
    (hrun : (inSequence items enclosing typeable).run ts = .ok r') (hdone : r'.IsDone) :
    GoesThrough items enclosing r' ts := by
  cases ts with
  | nil => exact .stop Grammar.stops_nil hlevel hrun
  | cons t us =>
    by_cases hclosing : t.kind = .closing
    · exact .stop (Grammar.stops_cons hclosing us) hlevel hrun
    · have hstep := step_inSequence items enclosing hclosing
        fun htypeable => hcolon htypeable t (by simp)
      obtain ⟨v, rest, hv, hvdepth, hrest⟩ := exists_value t us _ r' hstep hrun hdone
      have hlt := length_lt_of_eq_tokens_append hv
      rw [depth_inSequence _ items _ _ false] at hvdepth
      rw [fill_inSequence] at hrest
      by_cases hsep : Grammar.Separate rest
      · rw [hv]
        exact .cons (x := .plain v) hvdepth
          (goesThrough rest _ enclosing true r' hlevel (fun _ => hsep) hrest hdone)
      · -- the value is followed by a colon, and the colon by a type
        obtain ⟨colon, us', rfl, hkind⟩ := Grammar.exists_colon_of_not_separate hsep
        obtain ⟨r₁, hr₁, hus'⟩ := exists_of_run_cons_eq_ok hrest
        rw [step_colon hkind] at hr₁
        obtain rfl := Except.ok.inj hr₁
        cases us' with
        | nil =>
          obtain rfl := Except.ok.inj hus'
          exact absurd hdone.target (by simp [behindColon])
        | cons u us' =>
          have hltType : us'.length < (t :: us).length := by
            rw [List.length_cons, List.length_cons] at hlt
            omega
          obtain ⟨type, rest, htype, htypeDepth, hrest⟩ :=
            exists_value u us' _ r' step_behindColon hus' hdone
          have hltRest : rest.length < (t :: us).length :=
            Nat.lt_trans (length_lt_of_eq_tokens_append htype)
              (Nat.lt_trans (Nat.lt_succ_self _) hlt)
          rw [depth_behindColon _ _ _ _ false] at htypeDepth
          have htokens : t :: us = (Grammar.Typed.annotated v colon hkind type).tokens ++ rest := by
            rw [hv, htype, Grammar.Typed.tokens, List.append_assoc]
            rfl
          rw [htokens]
          refine .cons ?_ (goesThrough rest _ enclosing false r' hlevel (by simp) hrest hdone)
          rw [Grammar.Typed.depth]
          omega
termination_by (ts.length, 0)

end

end Reader

/-! ### Whole programs -/

lemma readTokens_eq_ok_iff {tokens : List Token} {source : String} {forms : List (Node H)} :
    readTokens tokens source = .ok forms ↔
      ∃ p : Grammar.Program, Grammar.tokens p = tokens ∧ Grammar.depth p ≤ maxNesting ∧
        Grammar.nodes p = forms := by
  have hread : readTokens (H := H) tokens source =
      ((Reader.inSequence [] [] false).run tokens).bind (Reader.finish source.toList) := rfl
  have hstart : (Reader.inSequence ([] : List (Node H)) [] false).depth = 0 := rfl
  rw [hread]
  constructor
  · intro h
    obtain ⟨r, hrun, hfinish⟩ := Except.exists_of_bind_eq_ok h
    obtain ⟨hdone, rfl⟩ := Reader.finish_eq_ok_iff.1 hfinish
    obtain ⟨p, rest, typeable, rfl, hdepth, hstops, hrest⟩ :=
      Reader.goesThrough tokens [] [] false r (Nat.zero_le _) (by simp) hrun hdone
    cases rest with
    | nil =>
      obtain rfl := Except.ok.inj hrest
      exact ⟨p, by simp, by omega, by simp [Reader.inSequence]⟩
    | cons closing rest =>
      -- outside of all lists no parenthesis closes anything
      obtain ⟨r₁, hr₁, -⟩ := Reader.exists_of_run_cons_eq_ok hrest
      exact absurd hr₁ (Reader.step_closing_outside (hstops closing (by simp)))
  · rintro ⟨p, rfl, hdepth, rfl⟩
    obtain ⟨typeable, hrun⟩ := Reader.run_program (H := H) p [] [] false (by omega)
    rw [hrun]
    let last : Reader H := .inSequence ((Grammar.nodes p).reverse ++ []) [] typeable
    have hfinish : last.finish source.toList = .ok (Grammar.nodes p) :=
      Reader.finish_eq_ok_iff.2 ⟨⟨rfl, rfl, rfl⟩, by simp [last, Reader.inSequence]⟩
    exact hfinish

/-- **Reading is deriving.**  Every source is cut into tokens.  These have one derivation from the
grammar at most, and reading them answers if and only if there is one in which no value lies more
than `maxNesting` values deep.  The answer is the nodes of the derivation. -/
theorem exists_lex_and_readTokens_eq_ok_iff_derives (source : String) :
    ∃ tokens, lex source = .ok tokens ∧
      (∀ p q : Grammar.Program, Grammar.tokens p = tokens → Grammar.tokens q = tokens → p = q) ∧
      ∀ forms : List (Node H), readTokens tokens source = .ok forms ↔
        ∃ p : Grammar.Program, Grammar.tokens p = tokens ∧ Grammar.depth p ≤ maxNesting ∧
          Grammar.nodes p = forms := by
  obtain ⟨tokens, htokens⟩ := Token.exists_scanFrom_eq_ok 0 source.toList
  refine ⟨tokens, htokens, ?_, fun forms => readTokens_eq_ok_iff⟩
  intro p q hp hq
  exact Grammar.eq_of_tokens_eq (hp.trans hq.symm)

end TypedLisp
