import Mathlib
import TypedLisp.Proofs.Lines
import TypedLisp.Proofs.Reading.Unclosed

/-!
# Hints at a missing parenthesis

The hint for an unclosed list goes back and forth between bytes, lines, indentations and the numbers
of items.  Here it is computed once more with every index checked, to see that none is out of range:
the spans of the items lie in the text, and since they are in order no item ends on an earlier line
than the one before it.

A hint is at the end of a line on which some item ends, and the next item ends on a line that is
indented less.  So the line of the hint is not the last one, and there is a line feed behind it.
-/

namespace TypedLisp

variable {H : Type}

open Grammar (Program nodes tokens)

namespace Hint

/-! ### The outline of a list

The levels of the item ends alone decide about a hint. -/

/-- The ends of some items, and the line at the end of which a parenthesis is missing, if any. -/
inductive Outline : List ItemEnd → Option Nat → Prop where
  /-- All items end on the level of the first one. -/
  | flat {first : ItemEnd} {same : List ItemEnd} (hsame : ∀ e ∈ same, e.level = first.level) :
    Outline (first :: same) none
  /-- The level changes, and there is no end below the new level. -/
  | settled {first settled : ItemEnd} {same kept : List ItemEnd}
    (hsame : ∀ e ∈ same, e.level = first.level) (hsettled : settled.level ≠ first.level)
    (hkept : ∀ e ∈ kept, settled.level ≤ e.level) :
    Outline (first :: (same ++ settled :: kept)) none
  /-- There is an end below the new level; the parenthesis is missing before it. -/
  | drops {first settled below : ItemEnd} {same kept more : List ItemEnd}
    (hsame : ∀ e ∈ same, e.level = first.level) (hsettled : settled.level ≠ first.level)
    (hkept : ∀ e ∈ kept, settled.level ≤ e.level) (hbelow : below.level < settled.level) :
    Outline (first :: (same ++ settled :: (kept ++ below :: more)))
      (some (kept.getLastD settled).line)

/-- What a search for the first level to fail a test comes upon does fail it. -/
lemma not_of_dropWhile_eq_cons {p : ItemEnd → Bool} {ends more : List ItemEnd} {e : ItemEnd}
    (h : ends.dropWhile p = e :: more) : p e = false := by
  have := List.head?_dropWhile_not p ends
  simpa [h] using this

theorem outline_lineBeforeDrop (first : ItemEnd) (rest : List ItemEnd) :
    Outline (first :: rest) (lineBeforeDrop (first :: rest)) := by
  have hdrop : (first :: rest).dropWhile (fun e => e.level == first.level) =
      rest.dropWhile (fun e => e.level == first.level) := by simp
  have hsame : ∀ e ∈ rest.takeWhile (fun e => e.level == first.level), e.level = first.level :=
    fun e he => by simpa using List.mem_takeWhile_imp he
  have hrest := List.takeWhile_append_dropWhile (p := fun e => e.level == first.level) (l := rest)
  rw [lineBeforeDrop]
  dsimp only
  rw [hdrop]
  split
  · next hnil =>
    rw [hnil, List.append_nil] at hrest
    rw [← hrest]
    exact .flat hsame
  · next settled others hcons =>
    have hsettled : settled.level ≠ first.level := by
      simpa using not_of_dropWhile_eq_cons hcons
    have hkept : ∀ e ∈ others.takeWhile (fun e => e.level ≥ settled.level),
        settled.level ≤ e.level := fun e he => by simpa using List.mem_takeWhile_imp he
    have hothers := List.takeWhile_append_dropWhile (p := fun e => e.level ≥ settled.level)
      (l := others)
    rw [hcons] at hrest
    rw [← hrest]
    split
    · next hlength =>
      have htake := (List.takeWhile_prefix fun e : ItemEnd => e.level ≥ settled.level).eq_of_length
        hlength
      rw [htake] at hkept
      exact .settled hsame hsettled hkept
    · next hlength =>
      cases hmore : others.dropWhile (fun e => e.level ≥ settled.level) with
      | nil =>
        rw [hmore, List.append_nil] at hothers
        exact absurd (congrArg List.length hothers) hlength
      | cons below more =>
        have hbelow : below.level < settled.level := by
          simpa using not_of_dropWhile_eq_cons hmore
        rw [hmore] at hothers
        conv => arg 1; rw [← hothers]
        exact .drops hsame hsettled hkept hbelow

/-! ### Checked indices -/

/-- The items from the number `start` up to the number `stop`, unless one of these is out of
range. -/
def cut? {α : Type} (xs : List α) (start stop : Nat) : Option (List α) :=
  if start ≤ stop ∧ stop ≤ xs.length then some ((xs.take stop).drop start) else none

/-- The number before another one, unless there is none. -/
def previous? (i : Nat) : Option Nat :=
  if i = 0 then none else some (i - 1)

/-- The text before a byte, unless the byte is out of range or inside a character. -/
def before? (n : Nat) (cs : List Char) : Option (List Char) :=
  if Text.width (Text.before n cs) = n then some (Text.before n cs) else none

/-- The line of a byte. -/
def lineAt? (n : Nat) (cs : List Char) : Option Nat :=
  (before? (min n (Text.width cs)) cs).map (List.count '\n')

/-- The number, from `i` on, of the first level that fails a test, or else the number of all
levels. -/
def skip (p : Nat → Bool) (levels : List Nat) (i : Nat) : Nat :=
  if h : i < levels.length then
    if p levels[i] then skip p levels (i + 1) else i
  else i
termination_by levels.length - i

/-- The line before the drop, in terms of the lines and the levels of all item ends. -/
def lineBeforeDrop? (endLines levels : List Nat) : Option (Option Nat) := do
  let level ← levels[0]?
  let moved := skip (· == level) levels 1
  match levels[moved]? with
  | none => some none
  | some settled =>
    let dropped := skip (settled ≤ ·) levels moved
    if dropped = levels.length then some none
    else do
      let i ← previous? dropped
      let line ← endLines[i]?
      some (some line)

/-- The hint for a list that has the given items, computed with every index checked: there is no
answer if one is out of range. -/
def ofUnclosed? (source : List Char) (items : List (Node H)) : Option (Option Hint) := do
  let spans := items.filterMap Node.span
  if spans.length < 2 then some none
  else
    let lines := Text.lines source
    let endLines ← spans.mapM fun s => lineAt? s.stop source
    let levels ← endLines.mapM fun line => lines[line]?.map Text.indentation
    match ← lineBeforeDrop? endLines levels with
    | none => some none
    | some line =>
      let firstSpan ← spans[0]?
      let first ← lineAt? firstSpan.start source
      let i ← previous? endLines.length
      let last ← endLines[i]?
      let region ← cut? lines first (last + 1)
      let missing := max (region.flatten.count '(' - region.flatten.count ')') 1
      let text ← lines[line]?
      let above ← cut? lines 0 line
      some (some ⟨wording (Text.dropReturn text) line missing,
        Text.width (above.flatMap (· ++ ['\n'])) + Text.width (Text.dropReturn text)⟩)

/-! ### Loops over levels -/

lemma skip_append {p : Nat → Bool} (xs ys zs : List Nat) (hys : ∀ y ∈ ys, p y)
    (hzs : ∀ z ∈ zs.head?, p z = false) :
    skip p (xs ++ (ys ++ zs)) xs.length = xs.length + ys.length := by
  induction ys generalizing xs with
  | nil =>
    rw [skip]
    cases zs with
    | nil => simp
    | cons z zs => simp [hzs z rfl]
  | cons y ys ih =>
    obtain ⟨hy, hys⟩ := List.forall_mem_cons.1 hys
    have hlast := ih (xs ++ [y]) hys
    simp only [List.append_assoc, List.singleton_append, List.length_append,
      List.length_singleton] at hlast
    rw [skip]
    simp only [List.cons_append, List.length_append, List.length_cons, List.getElem_append_right,
      Nat.le_refl, Nat.sub_self, List.getElem_cons_zero, hy, hlast]
    split
    · simp only [if_true]
      omega
    · omega

lemma getElem?_length_eq_getLastD {α : Type} (x : α) (xs ys : List α) :
    (x :: (xs ++ ys))[xs.length]? = some (xs.getLastD x) := by
  induction xs generalizing x with
  | nil => rfl
  | cons x' xs ih =>
    rw [List.getLastD_cons]
    exact ih x'

section

variable {first settled : ItemEnd} {same kept : List ItemEnd}

lemma skip_same (others : List ItemEnd) (hsame : ∀ e ∈ same, e.level = first.level)
    (hothers : ∀ e ∈ others.head?, e.level ≠ first.level) :
    skip (· == first.level) ((first :: (same ++ others)).map ItemEnd.level) 1 =
      same.length + 1 := by
  have h := skip_append (p := (· == first.level)) [first.level] (same.map ItemEnd.level)
    (others.map ItemEnd.level) (by simpa using hsame) (by simpa using hothers)
  simpa [Nat.add_comm] using h

lemma skip_kept (start others : List ItemEnd) (hkept : ∀ e ∈ kept, settled.level ≤ e.level)
    (hothers : ∀ e ∈ others.head?, e.level < settled.level) :
    skip (settled.level ≤ ·) ((start ++ settled :: (kept ++ others)).map ItemEnd.level)
      start.length = start.length + kept.length + 1 := by
  have h := skip_append (p := (settled.level ≤ ·)) (start.map ItemEnd.level)
    ((settled :: kept).map ItemEnd.level) (others.map ItemEnd.level) (by simpa using hkept)
    (by simpa using hothers)
  simpa [Nat.add_assoc] using h

/-- Both loops together, when the level changes. -/
lemma lineBeforeDrop?_of_settled (others : List ItemEnd)
    (hsame : ∀ e ∈ same, e.level = first.level) (hsettled : settled.level ≠ first.level)
    (hkept : ∀ e ∈ kept, settled.level ≤ e.level)
    (hothers : ∀ e ∈ others.head?, e.level < settled.level) {ends : List ItemEnd}
    (hends : ends = first :: (same ++ settled :: (kept ++ others))) :
    lineBeforeDrop? (ends.map ItemEnd.line) (ends.map ItemEnd.level) =
      if others = [] then some none else some (some (kept.getLastD settled).line) := by
  have hfirst : (ends.map ItemEnd.level)[0]? = some first.level := by rw [hends]; rfl
  have hmoved : skip (· == first.level) (ends.map ItemEnd.level) 1 = same.length + 1 := by
    rw [hends]
    exact skip_same _ hsame (by simpa using hsettled)
  have hlevel : (ends.map ItemEnd.level)[same.length + 1]? = some settled.level := by
    simp [hends]
  have hdropped : skip (settled.level ≤ ·) (ends.map ItemEnd.level) (same.length + 1) =
      same.length + 1 + kept.length + 1 := by
    rw [hends]
    exact skip_kept (first :: same) others hkept hothers
  have hlength : same.length + 1 + kept.length + 1 = (ends.map ItemEnd.level).length ↔
      others = [] := by
    rw [← List.length_eq_zero_iff, hends]
    simp only [List.length_map, List.length_cons, List.length_append]
    omega
  have hprevious : previous? (same.length + 1 + kept.length + 1) =
      some (same.length + 1 + kept.length) := rfl
  have hline : (ends.map ItemEnd.line)[same.length + 1 + kept.length]? =
      some (kept.getLastD settled).line := by
    have hlast := getElem?_length_eq_getLastD settled kept others
    have hindex : same.length + 1 + kept.length = (first :: same).length + kept.length := rfl
    rw [hends, List.getElem?_map, hindex, ← List.cons_append,
      List.getElem?_append_right (Nat.le_add_right _ _), Nat.add_sub_cancel_left, hlast]
    rfl
  simp only [lineBeforeDrop?, hfirst, hmoved, hlevel, hdropped, hlength, hprevious, hline,
    Option.bind_eq_bind, Option.bind_some]

end

/-- With checked indices, the line before the drop is the same. -/
lemma Outline.lineBeforeDrop?_eq {ends : List ItemEnd} {line? : Option Nat}
    (h : Outline ends line?) :
    lineBeforeDrop? (ends.map ItemEnd.line) (ends.map ItemEnd.level) = some line? := by
  cases h with
  | @flat first same hsame =>
    have hfirst : ((first :: same).map ItemEnd.level)[0]? = some first.level := rfl
    have hmoved := skip_same [] hsame (by simp)
    rw [List.append_nil] at hmoved
    have hnone : ((first :: same).map ItemEnd.level)[same.length + 1]? = none := by simp
    simp only [lineBeforeDrop?, hfirst, hmoved, hnone, Option.bind_eq_bind, Option.bind_some]
  | settled hsame hsettled hkept =>
    exact lineBeforeDrop?_of_settled [] hsame hsettled hkept (by simp) (by simp)
  | drops hsame hsettled hkept hbelow =>
    exact lineBeforeDrop?_of_settled _ hsame hsettled hkept (by simpa using hbelow) rfl

/-! ### Spans of items -/

section

variable {cs : List Char} {n : Nat}

lemma lineAt?_eq (h : Text.IsBoundary cs n) : lineAt? n cs = some (Text.lineAt n cs) := by
  have hmin : min n (Text.width cs) = n := Nat.min_eq_left h.le_width
  obtain ⟨p, r, rfl, rfl⟩ := h
  rw [lineAt?, hmin, before?, Text.before_width_append, if_pos rfl, Option.map_some,
    Text.lineAt_width_append]

lemma getElem?_lineAt (n : Nat) (cs : List Char) :
    (Text.lines cs)[Text.lineAt n cs]? = some ((Text.lines cs).getD (Text.lineAt n cs) []) := by
  have h := Text.lineAt_lt_length_lines n cs
  rw [List.getElem?_eq_getElem h, List.getD_eq_getElem _ _ h]

lemma mapM_eq_some_map {α β : Type} {f : α → Option β} {g : α → β} {xs : List α}
    (h : ∀ x ∈ xs, f x = some (g x)) : xs.mapM f = some (xs.map g) := by
  induction xs with
  | nil => rfl
  | cons x xs ih =>
    obtain ⟨hx, hxs⟩ := List.forall_mem_cons.1 h
    rw [List.mapM_cons, hx, ih hxs]
    rfl

/-- The end of an item at a span. -/
def itemEnd (cs : List Char) (s : Span) : ItemEnd := ⟨Text.lineAt s.stop cs, Text.levelAt s.stop cs⟩

lemma ofUnclosed_eq_map {items : List (Node H)} {first second : Span} {rest : List Span}
    (hitems : items.filterMap Node.span = first :: second :: rest) :
    ofUnclosed cs items =
      (lineBeforeDrop ((first :: second :: rest).map (itemEnd cs))).map fun line =>
        ⟨wording (Text.dropReturn ((Text.lines cs).getD line [])) line
          (missingClosings (Text.lines cs) (Text.lineAt first.start cs)
            (Text.lineAt ((first :: second :: rest).getLastD first).stop cs)),
          lineEnd (Text.lines cs) line⟩ := by
  rw [ofUnclosed, hitems]
  show (match lineBeforeDrop ((first :: second :: rest).map (itemEnd cs)) with
    | none => none
    | some line => _) = _
  cases lineBeforeDrop ((first :: second :: rest).map (itemEnd cs)) with
  | none => rfl
  | some line => rfl

lemma offset_of_ofUnclosed_eq_some {items : List (Node H)} {spans : List Span} {hint : Hint}
    (hitems : items.filterMap Node.span = spans) (h : ofUnclosed cs items = some hint) :
    ∃ line, lineBeforeDrop (spans.map (itemEnd cs)) = some line ∧
      hint.offset = lineEnd (Text.lines cs) line := by
  rcases spans with _ | ⟨first, _ | ⟨second, rest⟩⟩
  · rw [ofUnclosed, hitems] at h
    cases h
  · rw [ofUnclosed, hitems] at h
    cases h
  · rw [ofUnclosed_eq_map hitems] at h
    obtain ⟨line, hline, rfl⟩ := Option.map_eq_some_iff.1 h
    exact ⟨line, hline, rfl⟩

/-- In order, the first of some spans starts on no later line than that on which the last one
ends. -/
lemma lineAt_start_le_lineAt_stop {first last : Span} {spans : List Span}
    (hin : ∀ s ∈ first :: spans, s.IsIn cs)
    (horder : (first :: spans).Pairwise (·.stop ≤ ·.start)) (hlast : last ∈ first :: spans) :
    Text.lineAt first.start cs ≤ Text.lineAt last.stop cs := by
  refine Text.lineAt_le_lineAt ?_ cs
  have hfirst := (hin first List.mem_cons_self).start_le_stop
  rcases List.mem_cons.1 hlast with rfl | hlast
  · exact hfirst
  · have hle := (List.pairwise_cons.1 horder).1 last hlast
    have hlast := (hin last (List.mem_cons_of_mem _ hlast)).start_le_stop
    omega

/-- The lines on which items end can be computed. -/
lemma mapM_lineAt? {spans : List Span} (hin : ∀ s ∈ spans, s.IsIn cs) :
    spans.mapM (fun s => lineAt? s.stop cs) =
      some ((spans.map (itemEnd cs)).map ItemEnd.line) := by
  rw [List.map_map]
  exact mapM_eq_some_map fun s hs => lineAt?_eq (hin s hs).stop

/-- These lines are lines of the text. -/
lemma mapM_indentation (cs : List Char) (spans : List Span) :
    ((spans.map (itemEnd cs)).map ItemEnd.line).mapM
        (fun line => (Text.lines cs)[line]?.map Text.indentation) =
      some ((spans.map (itemEnd cs)).map ItemEnd.level) := by
  rw [List.map_map, List.map_map, List.mapM_map]
  refine mapM_eq_some_map fun s _ => ?_
  exact congrArg (Option.map Text.indentation) (getElem?_lineAt s.stop cs)

lemma getElem?_lastLine (cs : List Char) (first : Span) (rest : List Span) :
    (((first :: rest).map (itemEnd cs)).map ItemEnd.line)[rest.length]? =
      some (Text.lineAt ((first :: rest).getLastD first).stop cs) := by
  have hlast := getElem?_length_eq_getLastD first rest []
  rw [List.append_nil, ← List.getLastD_cons (a := first)] at hlast
  rw [List.map_map, List.getElem?_map, hlast]
  rfl

/-- The lines from the first to the last item are in range, since the items are in order. -/
lemma cut?_region {first : Span} {rest : List Span} (hin : ∀ s ∈ first :: rest, s.IsIn cs)
    (horder : (first :: rest).Pairwise (·.stop ≤ ·.start)) :
    cut? (Text.lines cs) (Text.lineAt first.start cs)
        (Text.lineAt ((first :: rest).getLastD first).stop cs + 1) =
      some (((Text.lines cs).take
        (Text.lineAt ((first :: rest).getLastD first).stop cs + 1)).drop
          (Text.lineAt first.start cs)) := by
  have hmem : (first :: rest).getLastD first ∈ first :: rest := by
    rw [List.getLastD_cons]
    exact List.getLastD_mem_cons
  have hle := lineAt_start_le_lineAt_stop hin horder hmem
  exact if_pos ⟨Nat.le_succ_of_le hle, Text.lineAt_lt_length_lines _ _⟩

/-- **No index is out of range.**  For items that lie in the text and are in order, the hint can be
computed with every index checked. -/
theorem ofUnclosed?_eq_some {items : List (Node H)} {spans : List Span}
    (hitems : items.filterMap Node.span = spans) (hin : ∀ s ∈ spans, s.IsIn cs)
    (horder : spans.Pairwise (·.stop ≤ ·.start)) :
    ofUnclosed? cs items = some (ofUnclosed cs items) := by
  rcases spans with _ | ⟨first, _ | ⟨second, rest⟩⟩
  · rw [ofUnclosed?, ofUnclosed, hitems]
    rfl
  · rw [ofUnclosed?, ofUnclosed, hitems]
    rfl
  have hlength : ¬ (first :: second :: rest).length < 2 := by simp
  have hdrop := (outline_lineBeforeDrop (itemEnd cs first)
    ((second :: rest).map (itemEnd cs))).lineBeforeDrop?_eq
  rw [← List.map_cons] at hdrop
  rw [ofUnclosed_eq_map hitems]
  simp only [ofUnclosed?, hitems, Option.bind_eq_bind, if_neg hlength, mapM_lineAt? hin,
    mapM_indentation, hdrop, Option.bind_some]
  cases hline : lineBeforeDrop ((first :: second :: rest).map (itemEnd cs)) with
  | none => rfl
  | some line =>
    have hfirst : lineAt? first.start cs = some (Text.lineAt first.start cs) :=
      lineAt?_eq (hin first List.mem_cons_self).start
    have hprevious : previous? (((first :: second :: rest).map (itemEnd cs)).map
        ItemEnd.line).length = some (second :: rest).length := by simp [previous?]
    have hlt : line < (Text.lines cs).length := by
      obtain ⟨e, he, rfl⟩ := exists_of_lineBeforeDrop hline
      obtain ⟨s, -, rfl⟩ := List.mem_map.1 he
      exact Text.lineAt_lt_length_lines _ _
    have htext : (Text.lines cs)[line]? = some ((Text.lines cs).getD line []) := by
      rw [List.getElem?_eq_getElem hlt, List.getD_eq_getElem _ _ hlt]
    have habove : cut? (Text.lines cs) 0 line = some ((Text.lines cs).take line) :=
      if_pos ⟨Nat.zero_le _, hlt.le⟩
    simp only [List.getElem?_cons_zero, hfirst, hprevious, getElem?_lastLine,
      cut?_region hin horder, htext, habove, Option.bind_some]
    rfl

/-! ### Places of hints -/

/-- Of the levels on which items end, the first one that is not that of the first item. -/
def settledLevel? (cs : List Char) (spans : List Span) : Option Nat :=
  (spans.map fun s => Text.levelAt s.stop cs).find? fun level =>
    some level ≠ spans.head?.map fun s => Text.levelAt s.stop cs

/-- A hint for an unclosed list of items at the given spans is well placed: it is at the end of a
line, and there the indentation drops. -/
structure IsWellPlaced (cs : List Char) (spans : List Span) (hint : Hint) : Prop where
  /-- The hint is in the text. -/
  offset_lt : hint.offset < Text.width cs
  /-- The hint cuts no character. -/
  isBoundary : Text.IsBoundary cs hint.offset
  /-- Behind the hint there is the end of a line. -/
  lineFeed : ['\n'] <+: Text.after hint.offset cs ∨ ['\r', '\n'] <+: Text.after hint.offset cs
  /-- An item ends on the line of the hint, and the next one on a later line that is indented
  less. -/
  drop : ∃ before s t behind, spans = before ++ s :: t :: behind ∧
    Text.lineAt hint.offset cs = Text.lineAt s.stop cs ∧
    Text.lineAt s.stop cs < Text.lineAt t.stop cs ∧
    Text.levelAt t.stop cs < Text.levelAt s.stop cs
  /-- The line of the hint is indented at least as much as the first one that is not indented like
  that of the first item. -/
  settled : ∃ level, settledLevel? cs spans = some level ∧ level ≤ Text.levelAt hint.offset cs

lemma exists_cons_eq_concat_getLastD {α : Type} (x : α) (xs : List α) :
    ∃ init, x :: xs = init ++ [xs.getLastD x] := by
  induction xs generalizing x with
  | nil => exact ⟨[], rfl⟩
  | cons x' xs ih =>
    obtain ⟨init, hinit⟩ := ih x'
    refine ⟨x :: init, ?_⟩
    rw [List.getLastD_cons, List.cons_append, ← hinit]

/-- The line before the drop is that of an item end, and the next one is the first below the level
that was new. -/
lemma Outline.exists_drop {ends : List ItemEnd} {line : Nat} (h : Outline ends (some line)) :
    ∃ before e next behind level, ends = before ++ e :: next :: behind ∧ e.line = line ∧
      next.level < level ∧ level ≤ e.level ∧
      (ends.map ItemEnd.level).find? (fun l => some l ≠ ends.head?.map ItemEnd.level) =
        some level := by
  cases h with
  | @drops first settled below same kept more hsame hsettled hkept hbelow =>
    obtain ⟨init, hinit⟩ := exists_cons_eq_concat_getLastD settled kept
    have hlevel : settled.level ≤ (kept.getLastD settled).level := by
      have hall : ∀ e ∈ settled :: kept, settled.level ≤ e.level := by simpa using hkept
      exact hall _ (hinit ▸ List.mem_append_right init List.mem_cons_self)
    refine ⟨first :: (same ++ init), kept.getLastD settled, below, more, settled.level, ?_, rfl,
      hbelow, hlevel, ?_⟩
    · have hmid : settled :: (kept ++ below :: more) =
          init ++ kept.getLastD settled :: below :: more := by
        rw [← List.cons_append, hinit, List.append_assoc]
        rfl
      rw [hmid, List.cons_append, List.append_assoc]
    · rw [List.find?_eq_some_iff_append]
      refine ⟨by simpa using hsettled, (first :: same).map ItemEnd.level,
        (kept ++ below :: more).map ItemEnd.level, by simp, by simpa using hsame⟩

/-- The same for items: after the item on the line of a hint there is one that ends below the level
that was new. -/
lemma exists_drop_of_lineBeforeDrop {spans : List Span} {line : Nat}
    (h : lineBeforeDrop (spans.map (itemEnd cs)) = some line) :
    ∃ before s t behind level, spans = before ++ s :: t :: behind ∧ Text.lineAt s.stop cs = line ∧
      Text.levelAt t.stop cs < level ∧ level ≤ Text.levelAt s.stop cs ∧
      settledLevel? cs spans = some level := by
  cases spans with
  | nil => cases h
  | cons first rest =>
    have houtline : Outline ((first :: rest).map (itemEnd cs)) (some line) :=
      h ▸ outline_lineBeforeDrop _ _
    obtain ⟨before, e, next, behind, level, hends, hline, hnext, hlevel, hfind⟩ :=
      houtline.exists_drop
    obtain ⟨before, fromDrop, hspans, rfl, hdrop⟩ := List.map_eq_append_iff.1 hends
    obtain ⟨s, fromNext, rfl, rfl, hnexts⟩ := List.map_eq_cons_iff.1 hdrop
    obtain ⟨t, behind, rfl, rfl, rfl⟩ := List.map_eq_cons_iff.1 hnexts
    rw [List.map_map] at hfind
    exact ⟨before, s, t, behind, level, hspans, hline, hnext, hlevel, hfind⟩

/-- Of two items in order that end on different levels, the second one ends on a later line. -/
lemma lineAt_lt_of_levelAt_lt {s t : Span} (hst : s.stop ≤ t.start) (ht : t.IsIn cs)
    (hlevel : Text.levelAt t.stop cs < Text.levelAt s.stop cs) :
    Text.lineAt s.stop cs < Text.lineAt t.stop cs := by
  have hle := Text.lineAt_le_lineAt (hst.trans ht.start_le_stop) cs
  refine hle.lt_of_ne fun heq => ?_
  rw [Text.levelAt, Text.levelAt, heq] at hlevel
  exact absurd hlevel (lt_irrefl _)

theorem isWellPlaced_of_ofUnclosed_eq_some {items : List (Node H)} {spans : List Span} {hint : Hint}
    (hitems : items.filterMap Node.span = spans) (hin : ∀ s ∈ spans, s.IsIn cs)
    (horder : spans.Pairwise (·.stop ≤ ·.start)) (h : ofUnclosed cs items = some hint) :
    hint.IsWellPlaced cs spans := by
  obtain ⟨line, hline, hoffset⟩ := offset_of_ofUnclosed_eq_some hitems h
  obtain ⟨before, s, t, behind, level, rfl, rfl, hnext, hlevel, hsettled⟩ :=
    exists_drop_of_lineBeforeDrop hline
  have hst : s.stop ≤ t.start :=
    (List.pairwise_cons.1 (List.pairwise_append.1 horder).2.1).1 t List.mem_cons_self
  have hlater := lineAt_lt_of_levelAt_lt hst (hin t (by simp)) (hnext.trans_le hlevel)
  have hnotLast : Text.lineAt s.stop cs + 1 < (Text.lines cs).length :=
    (Nat.succ_le_of_lt hlater).trans_lt (Text.lineAt_lt_length_lines _ _)
  obtain ⟨hlt, hat, hlineFeed⟩ := lineEnd_of_not_last hnotLast
  have hboundary := isBoundary_lineEnd (Text.lineAt_lt_length_lines s.stop cs)
  rw [← hoffset] at hlt hat hlineFeed hboundary
  refine ⟨hlt, hboundary, hlineFeed,
    ⟨before, s, t, behind, rfl, hat, hlater, hnext.trans_le hlevel⟩, ⟨level, hsettled, ?_⟩⟩
  rw [Text.levelAt, hat]
  exact hlevel

end

end Hint

/-- The error that the list of an opening parenthesis is not closed, without a hint. -/
def Error.unclosedAt (opening : Span) : Error := .grammar .unclosedList (some opening) none

/-! ### Items in their source -/

namespace Grammar

open Token (InOrder)

lemma exists_map_span_nodes (p : Program) :
    ∃ spans : List Span, (nodes p : List (Node H)).map Node.span = spans.map some := by
  induction p with
  | nil => exact ⟨[], rfl⟩
  | cons x p ih =>
    obtain ⟨spans, hspans⟩ := ih
    exact ⟨_ :: spans, congrArg₂ List.cons (x.span_node.trans x.value.span_node) hspans⟩

variable {p : Program} {spans : List Span} {cs : List Char}
  (hspans : (nodes p : List (Node H)).map Node.span = spans.map some)
include hspans

lemma filterMap_span_nodes : (nodes p : List (Node H)).filterMap Node.span = spans := by
  have h := congrArg (List.filterMap id) hspans
  simpa [List.filterMap_map] using h

lemma isIn_of_map_span_nodes (horder : InOrder (tokens p))
    (hin : ∀ t ∈ tokens p, t.span.IsIn cs) : ∀ s ∈ spans, s.IsIn cs := by
  intro s hs
  have hmem : some s ∈ (nodes p : List (Node H)).map Node.span :=
    hspans ▸ List.mem_map_of_mem hs
  obtain ⟨n, hn, hspan⟩ := List.mem_map.1 hmem
  exact (isPlaced_nodes p horder hin n hn).2.span_isIn s hspan

lemma pairwise_of_map_span_nodes (horder : InOrder (tokens p)) :
    spans.Pairwise (·.stop ≤ ·.start) := by
  have hnodes := pairwise_precedes_nodes (H := H) horder
  have hmap : ((nodes p : List (Node H)).map Node.span).Pairwise fun a b =>
      ∃ s t, a = some s ∧ b = some t ∧ s.stop ≤ t.start :=
    List.pairwise_map.2 hnodes
  rw [hspans, List.pairwise_map] at hmap
  refine hmap.imp ?_
  rintro s t ⟨_, _, ⟨⟩, ⟨⟩, hle⟩
  exact hle

end Grammar

/-- **The hint at a missing parenthesis.**  Where reading fails because a list is not closed, the
items behind its opening parenthesis decide about the hint, and no index is out of range when it is
computed.  The error has the same place and the same wording with the hint as without it.  And if
there is a hint, it is well placed. -/
theorem hint_of_read_eq_unclosedList {source : String} {span : Option Span} {hint : Option Hint}
    (h : read (H := H) source = .error (.grammar .unclosedList span hint)) :
    ∃ (before : List Token) (opening : Token) (p : Program) (spans : List Span),
      lex source = .ok (before ++ opening :: tokens p) ∧ opening.kind = .opening ∧
        (nodes p : List (Node H)).map Node.span = spans.map some ∧
        Hint.ofUnclosed? source.toList (nodes p : List (Node H)) = some hint ∧
        .grammar .unclosedList span hint =
          hint.elim (.unclosedAt opening.span) (Error.unclosedAt opening.span).withHint ∧
        (Error.grammar .unclosedList span hint).spans = (Error.unclosedAt opening.span).spans ∧
        (Error.grammar .unclosedList span hint).detail = (Error.unclosedAt opening.span).detail ∧
        ∀ placed ∈ hint, placed.IsWellPlaced source.toList spans := by
  obtain ⟨before, opening, p, hlex, hopening, rfl, rfl⟩ := exists_of_read_eq_unclosedList h
  obtain ⟨spans, hspans⟩ := Grammar.exists_map_span_nodes (H := H) p
  have hcuts := Token.scanFrom_eq_ok_iff.1 hlex
  have hsub : (tokens p).Sublist (before ++ opening :: tokens p) :=
    (List.sublist_cons_self _ _).trans (List.sublist_append_right _ _)
  have horder : Token.InOrder (tokens p) := (Token.InOrder.of_cuts hcuts).sublist hsub
  have hin : ∀ t ∈ tokens p, t.span.IsIn source.toList :=
    fun t ht => (Token.IsLaidOut.of_cuts hcuts).span_isIn (hsub.subset ht)
  have hitems := Grammar.filterMap_span_nodes hspans
  have hisIn := Grammar.isIn_of_map_span_nodes hspans horder hin
  have hpairwise := Grammar.pairwise_of_map_span_nodes hspans horder
  refine ⟨before, opening, p, spans, hlex, hopening, hspans,
    Hint.ofUnclosed?_eq_some hitems hisIn hpairwise, ?_, rfl, rfl, fun placed hplaced => ?_⟩
  · cases Hint.ofUnclosed source.toList (nodes p : List (Node H)) <;> rfl
  · exact Hint.isWellPlaced_of_ofUnclosed_eq_some hitems hisIn hpairwise hplaced

/-- A source in which the parenthesis of the inner list is missing behind `(g x)`. -/
def withoutParenthesis : String := "(def f\n  (lambda (x)\n    (g x)\n  (h x)\n(k 1)"

/-- There is a well-placed hint for the inner list. -/
theorem hint_of_read_eq_unclosedList_nested :
    ∃ (hint : Hint) (spans : List Span),
      read (H := Empty) withoutParenthesis =
        .error (.grammar .unclosedList (some ⟨9, 10⟩) (some hint)) ∧
      hint.IsWellPlaced withoutParenthesis.toList spans := by
  obtain ⟨ts, r, hlex, hrun, hquotes, htarget, ⟨outside, enclosing, henclosing⟩, hitems⟩ :
      ∃ ts r, lex withoutParenthesis = .ok ts ∧ (Reader.start : Reader Empty).run ts = .ok r ∧
        r.place.quotes = [] ∧ r.place.target = none ∧
        (∃ outside enclosing, r.enclosing = (⟨9, 10⟩, outside) :: enclosing) ∧
        r.place.items.reverse.filterMap Node.span =
          [⟨10, 16⟩, ⟨17, 20⟩, ⟨25, 30⟩, ⟨33, 38⟩, ⟨39, 44⟩] :=
    ⟨_, _, by cbv, by cbv, rfl, rfl, ⟨_, _, rfl⟩, rfl⟩
  obtain ⟨hint, hhint⟩ : ∃ hint,
      Hint.ofUnclosed withoutParenthesis.toList r.place.items.reverse = some hint := by
    have hline : Hint.lineBeforeDrop (List.map (Hint.itemEnd withoutParenthesis.toList)
        [⟨10, 16⟩, ⟨17, 20⟩, ⟨25, 30⟩, ⟨33, 38⟩, ⟨39, 44⟩]) = some 2 := by cbv
    rw [Hint.ofUnclosed_eq_map hitems, hline]
    exact ⟨_, rfl⟩
  have hread : read (H := Empty) withoutParenthesis =
      .error (.grammar .unclosedList (some ⟨9, 10⟩) (some hint)) := by
    rw [read, hlex]
    show ((Reader.start : Reader Empty).run ts).bind (Reader.finish _) = _
    rw [hrun, Except.bind, Reader.finish, hquotes, htarget, henclosing, hhint]
  obtain ⟨-, -, -, spans, -, -, -, -, -, -, -, hplaced⟩ := hint_of_read_eq_unclosedList hread
  exact ⟨hint, spans, hread, hplaced hint rfl⟩

end TypedLisp
