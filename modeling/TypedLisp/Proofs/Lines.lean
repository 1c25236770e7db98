import TypedLisp.Proofs.Places.Reading

/-!
# Lines and positions

A position is on the line of which the number is that of the line feeds before it.  The end of a
line that is not the last one is a position with a line feed behind it, perhaps after a carriage
return, and it is on that line.
-/

namespace TypedLisp
namespace Text

variable {cs p r : List Char} {m n k : Nat}

/-! ### The line of a position -/

@[simp] lemma lineAt_width_append (p r : List Char) : lineAt (width p) (p ++ r) = p.count '\n' := by
  rw [lineAt, before_width_append]

lemma before_isPrefix_before (h : m ≤ n) (cs : List Char) : before m cs <+: before n cs := by
  induction cs generalizing m n with
  | nil => exact List.prefix_rfl
  | cons c cs ih =>
    by_cases hm : m = 0
    · rw [before, if_pos hm]
      exact List.nil_prefix
    · rw [before, before, if_neg hm, if_neg (by omega)]
      exact (List.cons_prefix_cons).2 ⟨rfl, ih (Nat.sub_le_sub_right h _)⟩

/-- A later position is on no earlier line. -/
lemma lineAt_le_lineAt (h : m ≤ n) (cs : List Char) : lineAt m cs ≤ lineAt n cs :=
  (before_isPrefix_before h cs).sublist.count_le '\n'

/-- How far the line of a position is indented. -/
def levelAt (n : Nat) (cs : List Char) : Nat :=
  indentation ((lines cs).getD (lineAt n cs) [])

/-! ### The end of a line -/

lemma lineFeed_not_mem_of_mem_lines {line : List Char} (h : line ∈ lines cs) : '\n' ∉ line := by
  induction cs generalizing line with
  | nil => simp_all [lines]
  | cons c cs ih =>
    rw [lines] at h
    split at h
    · rcases List.mem_cons.1 h with rfl | h
      · exact List.not_mem_nil
      · exact ih h
    · next hc =>
      obtain ⟨first, rest, hlines⟩ := List.exists_cons_of_ne_nil (lines_ne_nil cs)
      rw [hlines] at h ih
      rcases List.mem_cons.1 h with rfl | h
      · have hfirst := ih List.mem_cons_self
        simpa [Ne.symm hc] using hfirst
      · exact ih (List.mem_cons_of_mem _ h)

lemma count_flatMap_lines {ls : List (List Char)} (h : ∀ line ∈ ls, '\n' ∉ line) :
    (ls.flatMap (· ++ ['\n'])).count '\n' = ls.length := by
  induction ls with
  | nil => rfl
  | cons line ls ih =>
    obtain ⟨hline, hls⟩ := List.forall_mem_cons.1 h
    rw [List.flatMap_cons, List.count_append, List.count_append, ih hls,
      List.count_eq_zero_of_not_mem hline]
    simp [Nat.add_comm]

/-- A line that is not the last one has a line feed behind it. -/
lemma exists_eq_append_line_lineFeed (h : k + 1 < (lines cs).length) :
    ∃ rest, cs = ((lines cs).take k).flatMap (· ++ ['\n']) ++ (lines cs).getD k [] ++
      '\n' :: rest := by
  obtain ⟨rest, hrest⟩ := exists_eq_append_line h
  have hk : k < (lines cs).length := Nat.lt_of_succ_lt h
  refine ⟨(lines cs).getD (k + 1) [] ++ rest, ?_⟩
  have htake : (lines cs).take (k + 1) = (lines cs).take k ++ [(lines cs).getD k []] := by
    rw [List.take_add_one, List.getElem?_eq_getElem hk, List.getD_eq_getElem _ _ hk]
    rfl
  rw [htake] at hrest
  conv_lhs => rw [hrest]
  simp only [List.flatMap_append, List.flatMap_singleton, List.append_assoc, List.cons_append,
    List.nil_append]

lemma exists_eq_dropReturn_append (line : List Char) :
    ∃ ending, line = dropReturn line ++ ending ∧ (ending = [] ∨ ending = ['\r']) := by
  rw [dropReturn]
  split
  · next hlast => exact ⟨['\r'], (List.dropLast_append_getLast? _ hlast).symm, .inr rfl⟩
  · exact ⟨[], (List.append_nil _).symm, .inl rfl⟩

end Text

/-- Behind the end of a line that is not the last one there is a line feed or a carriage return and
a line feed. -/
lemma Hint.exists_eq_append_lineEnd {cs : List Char} {k : Nat}
    (h : k + 1 < (Text.lines cs).length) :
    ∃ p ending rest, cs = p ++ (ending ++ '\n' :: rest) ∧ (ending = [] ∨ ending = ['\r']) ∧
      Text.width p = lineEnd (Text.lines cs) k ∧ p.count '\n' = k := by
  obtain ⟨rest, hrest⟩ := Text.exists_eq_append_line_lineFeed h
  obtain ⟨ending, hending, hcases⟩ :=
    Text.exists_eq_dropReturn_append ((Text.lines cs).getD k [])
  have hk : k < (Text.lines cs).length := Nat.lt_of_succ_lt h
  refine ⟨((Text.lines cs).take k).flatMap (· ++ ['\n']) ++
    Text.dropReturn ((Text.lines cs).getD k []), ending, rest, ?_, hcases, ?_, ?_⟩
  · conv_lhs => rw [hrest, hending]
    simp
  · rw [lineEnd, Text.width_append]
  · have hline : '\n' ∉ Text.dropReturn ((Text.lines cs).getD k []) := by
      have hmem : (Text.lines cs).getD k [] ∈ Text.lines cs := by
        rw [List.getD_eq_getElem _ _ hk]
        exact List.getElem_mem hk
      exact fun h => Text.lineFeed_not_mem_of_mem_lines hmem ((Text.dropReturn_isPrefix _).subset h)
    rw [List.count_append, List.count_eq_zero_of_not_mem hline, Text.count_flatMap_lines, add_zero,
      List.length_take_of_le hk.le]
    exact fun line hmem => Text.lineFeed_not_mem_of_mem_lines (List.mem_of_mem_take hmem)

/-- The end of a line that is not the last one is a position in the text and on this line, and the
line ends behind it. -/
lemma Hint.lineEnd_of_not_last {cs : List Char} {k : Nat} (h : k + 1 < (Text.lines cs).length) :
    lineEnd (Text.lines cs) k < Text.width cs ∧ Text.lineAt (lineEnd (Text.lines cs) k) cs = k ∧
      (['\n'] <+: Text.after (lineEnd (Text.lines cs) k) cs ∨
        ['\r', '\n'] <+: Text.after (lineEnd (Text.lines cs) k) cs) := by
  obtain ⟨p, ending, rest, hcs, hending, hwidth, hcount⟩ := exists_eq_append_lineEnd h
  rw [← hwidth]
  generalize Text.lines cs = lines at *
  subst hcs
  refine ⟨?_, ?_, ?_⟩
  · have hpos : 0 < Text.width (ending ++ '\n' :: rest) := Text.width_pos (by simp)
    rw [Text.width_append]
    omega
  · rw [Text.lineAt_width_append, hcount]
  · rw [Text.after_width_append]
    rcases hending with rfl | rfl
    · exact .inl ⟨rest, rfl⟩
    · exact .inr ⟨rest, rfl⟩

end TypedLisp
