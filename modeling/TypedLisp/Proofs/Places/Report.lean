import TypedLisp.Error.Report
import TypedLisp.Proofs.Places.Program

/-!
# Errors in their source

Every error points into the source that it comes from, so that a report can show it there.  A label
of the report counts in characters, and it has the characters that the span of the error has in
bytes; where the span is empty it has one character, to have something that can be underlined.
-/

namespace TypedLisp

open Text

variable {cs p r : List Char} {s : Span}

/-! ### Labels -/

/-- A label shows a span of a text. -/
structure Label.Shows (l : Label) (s : Span) (cs : List Char) : Prop where
  /-- The label does not end before it starts. -/
  start_le_stop : l.start ≤ l.stop
  /-- The label ends within the text. -/
  stop_le_length : l.stop ≤ cs.length
  /-- The label starts where the span does. -/
  width_start : width (cs.take l.start) = s.start
  /-- If the span is not empty, then the label ends where the span does. -/
  width_stop : s.start < s.stop → width (cs.take l.stop) = s.stop
  /-- If the span is not empty, then the characters of the label are those of the span. -/
  slice_eq : s.start < s.stop → (cs.take l.stop).drop l.start = slice s.start s.stop cs
  /-- If the span is empty and not at the end of the text, then the label has one character. -/
  one : s.start = s.stop → s.stop < width cs → l.stop = l.start + 1
  /-- At the end of the text it has none. -/
  none : s.start = s.stop → s.stop = width cs → l.stop = l.start

namespace Report

lemma charOffset_width_append (p r : List Char) : charOffset (p ++ r) (width p) = p.length := by
  rw [charOffset, before_width_append]

lemma labelAt_eq_of_ne_nil {q : List Char} (hq : q ≠ []) (text : String) :
    labelAt (p ++ q ++ r) ⟨width p, width p + width q⟩ text =
      ⟨p.length, p.length + q.length, text⟩ := by
  have hstart : charOffset (p ++ q ++ r) (width p) = p.length := by
    rw [List.append_assoc, charOffset_width_append]
  have hstop : charOffset (p ++ q ++ r) (width p + width q) = p.length + q.length := by
    rw [← width_append, charOffset_width_append, List.length_append]
  have hpos : 0 < q.length := List.length_pos_of_ne_nil hq
  have hle : ¬ p.length + q.length ≤ p.length := by omega
  rw [labelAt, hstart, hstop, if_neg hle, max_eq_right (Nat.le_add_right _ _)]

lemma labelAt_point_eq (p r : List Char) (text : String) :
    labelAt (p ++ r) (.point (width p)) text =
      ⟨p.length, min (p.length + 1) (p ++ r).length, text⟩ := by
  have hle : p.length ≤ min (p.length + 1) (p ++ r).length := by simp
  rw [labelAt, Span.point, charOffset_width_append, if_pos le_rfl, max_eq_right hle]

/-- A report shows each span that lies in the source. -/
theorem labelAt_shows (h : s.IsIn cs) (text : String) : (labelAt cs s text).Shows s cs := by
  obtain ⟨p, q, r, rfl, rfl⟩ := h.exists_eq_append
  -- a label of an empty span is widened, so it has a case of its own
  by_cases hq : q = []
  · subst hq
    have hlabel := labelAt_point_eq p r text
    simp only [List.append_nil, width_nil, Nat.add_zero]
    rw [Span.point] at hlabel
    rw [hlabel]
    refine ⟨by simp, by simp, by simp, ?_, ?_, ?_, ?_⟩
    · exact fun hlt => absurd hlt (lt_irrefl _)
    · exact fun hlt => absurd hlt (lt_irrefl _)
    · intro _ hlt
      have hr : r ≠ [] := by
        rintro rfl
        simp at hlt
      have hpos : 0 < r.length := List.length_pos_of_ne_nil hr
      rw [List.length_append]
      exact min_eq_left (by omega)
    · intro _ hend
      have hr : width r = 0 := by
        have hend' : width p = width (p ++ r) := hend
        rw [width_append] at hend'
        omega
      obtain rfl := eq_nil_of_width_eq_zero hr
      simp
  · have hpos : 0 < width q := width_pos hq
    have htake : (p ++ q ++ r).take (p.length + q.length) = p ++ q := by
      rw [← List.length_append, List.take_left]
    rw [labelAt_eq_of_ne_nil hq]
    refine ⟨Nat.le_add_right _ _, by simp, by simp, fun _ => ?_, fun _ => ?_, ?_, ?_⟩
    · rw [htake, width_append]
    · rw [htake, List.drop_left, slice_width_append]
    · exact fun heq => by dsimp only at heq; omega
    · exact fun heq => by dsimp only at heq; omega

/-- All labels of a report show spans of the source; the one of an error without a place is at the
start of it. -/
theorem exists_shows_of_mem_labelsOf {e : Error} (he : e.PointsInto cs) {l : Label}
    (hl : l ∈ labelsOf cs e) : ∃ s, s.IsIn cs ∧ l.Shows s cs := by
  rcases List.mem_append.1 hl with hl | hl
  · cases hspans : e.spans with
    | nil =>
      rw [hspans] at hl
      obtain rfl := List.mem_singleton.1 hl
      have hzero : (Span.point 0).IsIn cs := .point (isBoundary_zero cs)
      exact ⟨_, hzero, labelAt_shows hzero _⟩
    | cons first others =>
      have hin := he.spans
      rw [hspans] at hl hin
      rcases List.mem_cons.1 hl with rfl | hl
      · have hfirst : first.IsIn cs := hin first List.mem_cons_self
        exact ⟨first, hfirst, labelAt_shows hfirst _⟩
      · obtain ⟨s, hs, rfl⟩ := List.mem_map.1 hl
        have hother : s.IsIn cs := hin s (List.mem_cons_of_mem _ hs)
        exact ⟨s, hother, labelAt_shows hother _⟩
  · obtain ⟨hint, hhint, rfl⟩ := List.mem_map.1 hl
    have hoffset : IsBoundary cs hint.offset := he.hint hint (Option.mem_toList.1 hhint)
    have hpoint : (Span.point hint.offset).IsIn cs := .point hoffset
    exact ⟨_, hpoint, labelAt_shows hpoint _⟩

end Report

/-! ### Sources -/

/-- A span can be shown in a source: the source can be cut at both ends of it, and a report has a
label for it. -/
structure Span.IsShownIn (s : Span) (source : String) : Prop where
  /-- The span does not end before it starts. -/
  start_le_stop : s.start ≤ s.stop
  /-- The span ends within the source. -/
  stop_le : s.stop ≤ source.utf8ByteSize
  /-- The span starts at a character. -/
  start_isValid : String.Pos.Raw.IsValid source ⟨s.start⟩
  /-- The span ends at a character. -/
  stop_isValid : String.Pos.Raw.IsValid source ⟨s.stop⟩
  /-- A report shows the span, whatever it says there. -/
  label (text : String) : (Report.labelAt source.toList s text).Shows s source.toList

lemma Span.IsIn.isShownIn {source : String} (h : s.IsIn source.toList) : s.IsShownIn source where
  start_le_stop := h.start_le_stop
  stop_le := by
    rw [← width_toList]
    exact h.stop_le_width
  start_isValid := isBoundary_toList_iff.1 h.start
  stop_isValid := isBoundary_toList_iff.1 h.stop
  label := Report.labelAt_shows h

/-- **Errors point into the program.**  Whatever stage a source is taken to, if it is in error, then
all places of the error and the one of its hint can be shown in the source. -/
theorem isShownIn_of_render {depth : Nat} {source moduleName : String} {stage : Stage}
    {types : Bool} {e : Error}
    (h : render depth source moduleName stage types = .error (.raised e)) :
    (∀ s ∈ e.spans, s.IsShownIn source) ∧
      ∀ hint ∈ e.hint?, (Span.point hint.offset).IsShownIn source := by
  have hstays := render_staysIn depth source moduleName stage types
  rw [h] at hstays
  exact ⟨fun s hs => (hstays.error.spans s hs).isShownIn,
    fun hint hhint => (Span.IsIn.point (hstays.error.hint hint hhint)).isShownIn⟩

/-- The span of `c d`, which is no node of the source: it is made up when the arrow is nested. -/
theorem isShownIn_of_nested_arrow :
    render 5 "'é (f: (-> a b c d) x: a): (-> b d)" "m" .infer false =
        .error (.raised (.typing (.mismatch "(-> c d)" "d") [⟨16, 19⟩, ⟨34, 35⟩])) ∧
      ∀ s ∈ [Span.mk 16 19, ⟨34, 35⟩], s.IsShownIn "'é (f: (-> a b c d) x: a): (-> b d)" := by
  have h : render 5 "'é (f: (-> a b c d) x: a): (-> b d)" "m" .infer false =
      .error (.raised (.typing (.mismatch "(-> c d)" "d") [⟨16, 19⟩, ⟨34, 35⟩])) := by cbv
  exact ⟨h, (isShownIn_of_render h).1⟩

end TypedLisp
