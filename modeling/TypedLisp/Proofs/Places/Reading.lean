import TypedLisp.Proofs.Erasure.Outcome
import TypedLisp.Proofs.Places.Node
import TypedLisp.Proofs.Reading.Faithful

/-!
# Places of what is read

An error of the reader is at a token, from an opening parenthesis to the end, or at a colon; the
reader keeps the spans of what is still open.  Its hint is at the end of a line.  The forms that it
answers with have all their spans in the text, and the items of the types in them are in order.
-/

namespace TypedLisp

variable {H α β : Type} {cs : List Char}

namespace Outcome.StaysIn

variable {G : α → Prop} {F : β → Prop}

lemma ofExcept {x : Except Error α} (hok : ∀ a, x = .ok a → G a)
    (herror : ∀ e, x = .error e → e.PointsInto cs) : (Outcome.ofExcept x).StaysIn cs G := by
  cases x with
  | ok a => exact .ok (hok a rfl)
  | error e => exact .raised (herror e rfl)

end Outcome.StaysIn

/-! ### Lines -/

namespace Text

lemma lines_ne_nil (cs : List Char) : lines cs ≠ [] := by
  cases cs with
  | nil => simp [lines]
  | cons c cs =>
    rw [lines]
    repeat' split
    all_goals simp

lemma length_lines (cs : List Char) : (lines cs).length = cs.count '\n' + 1 := by
  induction cs with
  | nil => rfl
  | cons c cs ih =>
    rw [lines]
    split
    · next hc => simp [hc, ih]
    · next hc =>
      obtain ⟨line, rest, hlines⟩ := List.exists_cons_of_ne_nil (lines_ne_nil cs)
      rw [hlines] at ih ⊢
      simpa [hc] using ih

/-- A text goes through its lines in turn, with a line feed behind each one but the last. -/
lemma exists_eq_append_line {k : Nat} (h : k < (lines cs).length) :
    ∃ rest, cs = ((lines cs).take k).flatMap (· ++ ['\n']) ++ (lines cs).getD k [] ++ rest := by
  induction cs generalizing k with
  | nil =>
    obtain rfl : k = 0 := by simpa [lines] using h
    exact ⟨[], rfl⟩
  | cons c cs ih =>
    rw [lines] at h ⊢
    by_cases hc : c = '\n'
    · rw [if_pos hc] at h ⊢
      subst hc
      cases k with
      | zero => exact ⟨'\n' :: cs, rfl⟩
      | succ k =>
        obtain ⟨rest, hrest⟩ := ih (Nat.lt_of_succ_lt_succ h)
        refine ⟨rest, ?_⟩
        conv_lhs => rw [hrest]
        simp
    · rw [if_neg hc] at h ⊢
      obtain ⟨line, more, hlines⟩ := List.exists_cons_of_ne_nil (lines_ne_nil cs)
      rw [hlines] at h ih ⊢
      obtain ⟨rest, hrest⟩ := ih (k := k) (by simpa using h)
      refine ⟨rest, ?_⟩
      conv_lhs => rw [hrest]
      cases k <;> simp

lemma lineAt_lt_length_lines (n : Nat) (cs : List Char) : lineAt n cs < (lines cs).length := by
  have hcount := congrArg (List.count '\n') (before_append_after n cs)
  rw [List.count_append] at hcount
  rw [length_lines, lineAt]
  omega

lemma dropReturn_isPrefix (line : List Char) : dropReturn line <+: line := by
  unfold dropReturn
  split
  · exact List.dropLast_prefix line
  · exact List.prefix_rfl

end Text

namespace Hint

lemma exists_of_lineBeforeDrop {ends : List ItemEnd} {line : Nat}
    (h : lineBeforeDrop ends = some line) : ∃ e ∈ ends, e.line = line := by
  unfold lineBeforeDrop at h
  split at h
  · cases h
  · next first rest =>
    split at h
    · cases h
    · next settled others heq =>
      dsimp only at h
      split at h
      · cases h
      · refine ⟨_, ?_, Option.some.inj h⟩
        have hsuffix : settled :: others <:+ first :: rest := heq ▸ List.dropWhile_suffix _
        refine hsuffix.subset ?_
        rcases List.mem_cons.1 List.getLastD_mem_cons with h | h
        · rw [h]
          exact List.mem_cons_self
        · exact List.mem_cons_of_mem _ ((List.takeWhile_prefix _).subset h)

/-- The end of a line is between two characters. -/
lemma isBoundary_lineEnd {line : Nat} (h : line < (Text.lines cs).length) :
    Text.IsBoundary cs (lineEnd (Text.lines cs) line) := by
  obtain ⟨rest, hrest⟩ := Text.exists_eq_append_line h
  obtain ⟨dropped, hdropped⟩ := Text.dropReturn_isPrefix ((Text.lines cs).getD line [])
  rw [lineEnd, ← Text.width_append]
  refine ⟨_, dropped ++ rest, ?_, rfl⟩
  rw [List.append_assoc, ← List.append_assoc _ dropped, hdropped, ← List.append_assoc]
  exact hrest

lemma isBoundary_of_ofUnclosed {items : List (Node H)} {hint : Hint}
    (h : ofUnclosed cs items = some hint) : Text.IsBoundary cs hint.offset := by
  unfold ofUnclosed at h
  split at h
  · next first second rest heq =>
    dsimp only at h
    split at h
    · cases h
    · next line hline =>
      obtain rfl := Option.some.inj h
      obtain ⟨e, he, rfl⟩ := exists_of_lineBeforeDrop hline
      obtain ⟨s, -, rfl⟩ := List.mem_map.1 he
      exact isBoundary_lineEnd (Text.lineAt_lt_length_lines _ _)
  · cases h

end Hint

/-! ### The reader -/

/-- The colon before the value that a place waits for, if any, lies in a text. -/
def Place.IsPlaced (cs : List Char) (p : Place H) : Prop := ∀ c ∈ p.target, c.1.IsIn cs

/-- The spans of what is open lie in a text. -/
structure Reader.IsPlaced (cs : List Char) (r : Reader H) : Prop where
  /-- The colon that waits for a type lies in the text. -/
  place : r.place.IsPlaced cs
  /-- The parentheses of the open lists lie in the text, and so do the colons around them. -/
  enclosing : ∀ p ∈ r.enclosing, p.1.IsIn cs ∧ p.2.IsPlaced cs

namespace Reader

variable {r : Reader H} {t : Token}

lemma isPlaced_start : (Reader.start : Reader H).IsPlaced cs := ⟨nofun, nofun⟩

lemma IsPlaced.fill (h : r.IsPlaced cs) (value : Node H) : (r.fill value).IsPlaced cs := by
  unfold Reader.fill
  dsimp only
  split
  · exact ⟨nofun, h.enclosing⟩
  · exact ⟨nofun, h.enclosing⟩

lemma stepValue_staysIn (h : r.IsPlaced cs) (ht : t.span.IsIn cs) :
    (Outcome.ofExcept (stepValue r t)).StaysIn cs (IsPlaced (H := H) cs) := by
  have herror (cause : GrammarCause) :
      (Outcome.ofExcept (.error (.grammar cause (some t.span) none))).StaysIn cs
        (IsPlaced (H := H) cs) :=
    .raised (Error.pointsInto_grammar cause ht.ifAny nofun)
  unfold stepValue
  split
  · exact herror _
  · split
    · exact .ok ⟨nofun, List.forall_mem_cons.2 ⟨⟨ht, h.place⟩, h.enclosing⟩⟩
    · exact .ok ⟨h.place, h.enclosing⟩
    · exact .ok (h.fill _)
    · exact .ok (h.fill _)
    · split
      · exact herror _
      · exact .ok (h.fill _)
    · exact herror _
    · exact herror _

lemma step_staysIn (h : r.IsPlaced cs) (ht : t.span.IsIn cs) :
    (Outcome.ofExcept (step r t)).StaysIn cs (IsPlaced (H := H) cs) := by
  unfold step
  split
  · refine .ok ⟨?_, h.enclosing⟩
    rintro _ ⟨⟩
    exact ht
  · next hclosing hplace henclosing =>
    have hall := h.enclosing
    rw [henclosing] at hall
    obtain ⟨⟨-, houtside⟩, henclosing'⟩ := List.forall_mem_cons.1 hall
    exact .ok (IsPlaced.fill ⟨houtside, henclosing'⟩ _)
  · exact stepValue_staysIn ⟨h.place, h.enclosing⟩ ht

lemma run_staysIn {ts : List Token} (h : r.IsPlaced cs) (hts : ∀ t ∈ ts, t.span.IsIn cs) :
    (Outcome.ofExcept (r.run ts)).StaysIn cs (IsPlaced (H := H) cs) := by
  induction ts generalizing r with
  | nil => exact .ok h
  | cons t ts ih =>
    obtain ⟨ht, hts⟩ := List.forall_mem_cons.1 hts
    rw [run_cons]
    change (Outcome.ofExcept (r.step t >>= fun r => r.run ts)).StaysIn cs _
    rw [Outcome.ofExcept_bind]
    exact (step_staysIn h ht).bind fun r hr => ih hr hts

lemma finish_staysIn (h : r.IsPlaced cs) :
    (Outcome.ofExcept (finish cs r)).StaysIn cs fun _ => True := by
  unfold finish
  split
  · have hend : (Span.point (Text.width cs)).IsIn cs := .point (Text.isBoundary_width cs)
    exact .raised (Error.pointsInto_grammar _ hend.ifAny nofun)
  · next htarget =>
    exact .raised (Error.pointsInto_grammar _ (h.place _ htarget).ifAny nofun)
  · next opening _ _ _ _ henclosing =>
    have hall := h.enclosing
    rw [henclosing] at hall
    have hopening : opening.IsIn cs := (List.forall_mem_cons.1 hall).1.1
    refine .raised (Error.pointsInto_grammar _ hopening.ifAny ?_)
    exact fun hint hhint => Hint.isBoundary_of_ofUnclosed hhint
  · exact .ok trivial

end Reader

/-! ### Forms -/

lemma Node.Precedes.startsBefore {m n : Node H} (h : m.Precedes n) (hm : m.IsLaid cs)
    (hn : n.IsLaid cs) : m.StartsBefore n := by
  obtain ⟨s, t, hs, ht, hle⟩ := h
  intro s' hs' t' ht'
  obtain rfl := Option.some.inj (hs.symm.trans hs')
  obtain rfl := Option.some.inj (ht.symm.trans ht')
  have hlem := (hm.span_isIn s hs).start_le_stop
  have hlen := (hn.span_isIn t ht).start_le_stop
  omega

lemma Token.InOrder.start_le_stop {ts : List Token} {first last : Token} (h : Token.InOrder ts)
    (hfirst : ts.head? = some first) (hlast : ts.getLast? = some last) :
    first.span.start ≤ last.span.stop := by
  obtain ⟨rest, rfl⟩ := List.head?_eq_some_iff.1 hfirst
  have hlt := h.start_lt_stop
  rcases List.mem_cons.1 (List.mem_of_getLast? hlast) with rfl | hmem
  · exact (hlt _ List.mem_cons_self).le
  · have hle := (List.pairwise_cons.1 h.pairwise).1 last hmem
    have hfirst' := hlt first List.mem_cons_self
    have hlast' := hlt last (List.mem_cons_of_mem _ hmem)
    omega

namespace Grammar

open Token (InOrder)

lemma Value.span_isIn {v : Value} (horder : InOrder v.tokens)
    (hin : ∀ t ∈ v.tokens, t.span.IsIn cs) : Span.IsInIfAny (v.node : Node H).span cs := by
  obtain ⟨last, hlast, hstop⟩ := v.exists_last
  have hfirst := hin v.first (List.mem_of_head? v.head?_tokens)
  rw [v.span_node, hstop]
  exact (hfirst.cover (hin last (List.mem_of_getLast? hlast))
    (horder.start_le_stop v.head?_tokens hlast)).ifAny

mutual

/-- All spans of a value whose tokens are in order lie in the text, and so would those of the value
as a type. -/
theorem Value.isPlaced_node : ∀ v : Value, InOrder v.tokens → (∀ t ∈ v.tokens, t.span.IsIn cs) →
    (v.node : Node H).IsPlaced cs (Node.IsLaid cs) ∧ (v.node : Node H).IsLaid cs
  | .atom t ht, horder, hin => by
    have hspan := Value.span_isIn (H := H) (v := .atom t ht) horder hin
    exact ⟨.leaf hspan rfl, .leaf hspan rfl⟩
  | .str t ht, horder, hin => by
    have hspan := Value.span_isIn (H := H) (v := .str t ht) horder hin
    have hstr : (Node.atom "str" none : Node H).IsLaid cs := .leaf Span.isInIfAny_none rfl
    exact ⟨.withType (.leaf hspan rfl) hstr, .withType (.leaf hspan rfl) _⟩
  | .keyword t ht hname, horder, hin => by
    have hspan := Value.span_isIn (H := H) (v := .keyword t ht hname) horder hin
    exact ⟨.leaf hspan rfl, .leaf hspan rfl⟩
  | .quoted mark hmark value, horder, hin => by
    have hspan := Value.span_isIn (H := H) (v := .quoted mark hmark value) horder hin
    have hsub : value.tokens.Sublist (mark :: value.tokens) := List.sublist_cons_self _ _
    obtain ⟨hplaced, hlaid⟩ := Value.isPlaced_node value (horder.sublist hsub)
      fun t ht => hin t (hsub.subset ht)
    exact ⟨.quoted hspan hplaced, .quoted hspan hlaid⟩
  | .list opening hopening items closing hclosing, horder, hin => by
    have hspan := Value.span_isIn (H := H) (v := .list opening hopening items closing hclosing)
      horder hin
    have hsub : (tokens items).Sublist (opening :: (tokens items ++ [closing])) :=
      (List.sublist_append_left _ _).trans (List.sublist_cons_self _ _)
    have hnodes := isPlaced_nodes items (horder.sublist hsub) fun t ht => hin t (hsub.subset ht)
    have hlaid : ∀ n ∈ (nodes items : List (Node H)), n.IsLaid cs := fun n hn => (hnodes n hn).2
    have hpairwise : (nodes items : List (Node H)).Pairwise Node.StartsBefore :=
      (pairwise_precedes_nodes (horder.sublist hsub)).imp_of_mem fun hm hn h =>
        h.startsBefore (hlaid _ hm) (hlaid _ hn)
    exact ⟨.list hspan fun n hn => (hnodes n hn).1, .list hspan hlaid hpairwise⟩

theorem Typed.isPlaced_node : ∀ x : Typed, InOrder x.tokens → (∀ t ∈ x.tokens, t.span.IsIn cs) →
    (x.node : Node H).IsPlaced cs (Node.IsLaid cs) ∧ (x.node : Node H).IsLaid cs
  | .plain value, horder, hin => Value.isPlaced_node value horder hin
  | .annotated value colon hcolon type, horder, hin => by
    have hvalue : value.tokens.Sublist (value.tokens ++ colon :: type.tokens) :=
      List.sublist_append_left _ _
    have htype : type.tokens.Sublist (value.tokens ++ colon :: type.tokens) :=
      (List.sublist_cons_self _ _).trans (List.sublist_append_right _ _)
    obtain ⟨hplaced, hlaid⟩ := Value.isPlaced_node value (horder.sublist hvalue)
      fun t ht => hin t (hvalue.subset ht)
    obtain ⟨-, htypelaid⟩ := Value.isPlaced_node type (horder.sublist htype)
      fun t ht => hin t (htype.subset ht)
    exact ⟨hplaced.withType htypelaid.withoutTypes, hlaid.withType _⟩

theorem isPlaced_nodes : ∀ p : Program, InOrder (tokens p) → (∀ t ∈ tokens p, t.span.IsIn cs) →
    ∀ n ∈ (nodes p : List (Node H)), n.IsPlaced cs (Node.IsLaid cs) ∧ n.IsLaid cs
  | [], horder, hin => by simp [nodes]
  | x :: p, horder, hin => by
    have hx : x.tokens.Sublist (x.tokens ++ tokens p) := List.sublist_append_left _ _
    have hp : (tokens p).Sublist (x.tokens ++ tokens p) := List.sublist_append_right _ _
    exact List.forall_mem_cons.2 ⟨Typed.isPlaced_node x (horder.sublist hx)
      fun t ht => hin t (hx.subset ht), isPlaced_nodes p (horder.sublist hp)
      fun t ht => hin t (hp.subset ht)⟩

end

end Grammar

/-- Reading stays in the source: its errors point into the source, and so do the spans of its
forms. -/
theorem read_staysIn (source : String) : (Outcome.ofExcept (read (H := H) source)).StaysIn
    source.toList fun forms => ∀ form ∈ forms, form.IsPlaced source.toList
      (Node.IsLaid source.toList) := by
  obtain ⟨ts, hcuts⟩ := Token.exists_cuts 0 source.toList
  have hread : read (H := H) source = readTokens ts source := by
    rw [read, lex, hcuts.scanFrom_eq_ok]
    rfl
  have hin : ∀ t ∈ ts, t.span.IsIn source.toList :=
    fun t ht => (Token.IsLaidOut.of_cuts hcuts).span_isIn ht
  rw [hread]
  refine .ofExcept ?_ ?_
  · intro forms hforms
    obtain ⟨p, rfl, -, rfl⟩ := readTokens_eq_ok_iff.1 hforms
    exact fun form hform => (Grammar.isPlaced_nodes p (.of_cuts hcuts) hin form hform).1
  · intro e he
    have hstart : (Reader.start : Reader H).IsPlaced source.toList := Reader.isPlaced_start
    have hrun : (Outcome.ofExcept (readTokens (H := H) ts source)).StaysIn source.toList
        fun _ => True := by
      change (Outcome.ofExcept (Reader.start.run ts >>= Reader.finish source.toList)).StaysIn _ _
      rw [Outcome.ofExcept_bind]
      exact (Reader.run_staysIn hstart hin).bind fun r hr => Reader.finish_staysIn hr
    rw [he] at hrun
    exact hrun.error

end TypedLisp
