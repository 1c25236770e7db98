import TypedLisp.Proofs.Reading.Slices
import TypedLisp.Proofs.Text

/-!
# Lexing loses nothing

What the lexer drops is white space and comments, and everything else of a text is in its tokens.
So a text is made of the texts of its tokens, each at the span of the token, with gaps before,
between and behind them.  That the spans of the tokens are in order and between characters follows
from this layout.
-/

namespace TypedLisp
namespace Token

variable {c : Char} {cs gap piece rest : List Char} {start : Nat} {t : Token} {ts : List Token}

/-! ### Gaps -/

/-- A text in front of the text `rest` is white space and comments.  A comment reaches from a
semicolon up to, not including, the next line feed or carriage return, or else the end of all
text. -/
inductive IsGap (rest : List Char) : List Char → Prop
  /-- There may be nothing. -/
  | nil : IsGap rest []
  /-- A blank, and what comes after it. -/
  | space {c : Char} {gap : List Char} (hc : isSpace c) (hgap : IsGap rest gap) :
      IsGap rest (c :: gap)
  /-- A comment, and what comes after it. -/
  | comment {text gap : List Char} (htext : ∀ d ∈ text, ¬ isLineEnd d)
      (hend : ∀ d ∈ (gap ++ rest).head?, isLineEnd d) (hgap : IsGap rest gap) :
      IsGap rest (';' :: text ++ gap)

/-- A run is as long as a part of the text if all of this part and nothing behind it belongs to
the run. -/
lemma of_runLength_eq_length {p : Char → Bool} (h : runLength p (piece ++ rest) = piece.length) :
    (∀ d ∈ piece, p d) ∧ ∀ d ∈ rest.head?, ¬ p d := by
  induction piece with
  | nil =>
    refine ⟨by simp, ?_⟩
    intro d hd hp
    obtain ⟨ds, rfl⟩ := List.head?_eq_some_iff.1 hd
    rw [List.nil_append, runLength_cons_of_pos hp] at h
    cases h
  | cons c piece ih =>
    rw [List.cons_append, List.length_cons] at h
    by_cases hc : p c
    · rw [runLength_cons_of_pos hc] at h
      obtain ⟨hpiece, hrest⟩ := ih (Nat.succ.inj h)
      exact ⟨List.forall_mem_cons.2 ⟨hc, hpiece⟩, hrest⟩
    · rw [runLength_cons_of_neg hc] at h
      cases h

namespace IsGap

lemma spaces (hcs : ∀ c ∈ cs, isSpace c) (hgap : IsGap rest gap) : IsGap rest (cs ++ gap) := by
  induction cs with
  | nil => exact hgap
  | cons c cs ih =>
    obtain ⟨hc, hcs⟩ := List.forall_mem_cons.1 hcs
    exact .space hc (ih hcs)

/-- What the lexer drops makes a gap longer. -/
lemma append_of_scan (hscan : scan c (piece ++ (gap ++ rest)) = some (none, piece.length))
    (hgap : IsGap rest gap) : IsGap rest (c :: piece ++ gap) := by
  unfold scan at hscan
  repeat' split at hscan
  all_goals simp only [Option.some.injEq, Prod.mk.injEq, reduceCtorEq, false_and, true_and] at hscan
  · next hc =>
    obtain rfl : c = ';' := by simpa using hc
    obtain ⟨htext, hend⟩ := of_runLength_eq_length hscan
    exact .comment (by simpa using htext) (by simpa using hend) hgap
  · next hc =>
    obtain ⟨hpiece, -⟩ := of_runLength_eq_length hscan
    exact .spaces (List.forall_mem_cons.2 ⟨hc, hpiece⟩) hgap

end IsGap

/-! ### Layout -/

/-- A text that starts at the byte `start` of the source is made of the texts of tokens, each at the
span of the token, with gaps before, between and behind them. -/
inductive IsLaidOut : Nat → List Char → List Token → Prop
  /-- There is only a gap. -/
  | nil {start : Nat} {gap : List Char} (hgap : IsGap [] gap) : IsLaidOut start gap []
  /-- The first token comes after a gap. -/
  | cons {start : Nat} {gap rest : List Char} {t : Token} {ts : List Token}
      (hgap : IsGap (t.text.toList ++ rest) gap) (hne : t.text ≠ "")
      (hstart : t.span.start = start + Text.width gap)
      (hstop : t.span.stop = t.span.start + t.text.utf8ByteSize)
      (hrest : IsLaidOut t.span.stop rest ts) :
      IsLaidOut start (gap ++ (t.text.toList ++ rest)) (t :: ts)

lemma IsLaidOut.of_cuts (h : Cuts start cs ts) : IsLaidOut start cs ts := by
  induction h with
  | nil start => exact .nil .nil
  | @dropped start c piece rest ts hscan hrest ih =>
    cases ih with
    | nil hgap =>
      refine .nil (.append_of_scan ?_ hgap)
      rwa [List.append_nil]
    | cons hgap hne hstart hstop hlaid =>
      rw [← List.append_assoc]
      refine .cons (.append_of_scan hscan hgap) hne ?_ hstop hlaid
      rw [hstart, Nat.add_assoc, Text.width_append]
  | @token start c piece rest ts kind hscan hrest ih =>
    have htext : (String.ofList (c :: piece)).toList = c :: piece := String.toList_ofList
    have hwidth := Text.width_ofList (c :: piece)
    have hlaid := @IsLaidOut.cons start [] rest
      ⟨kind, String.ofList (c :: piece), ⟨start, start + Text.width (c :: piece)⟩⟩ ts .nil
      (by simp [← String.toList_inj]) rfl (by rw [hwidth]) ih
    rwa [htext] at hlaid

namespace IsLaidOut

lemma start_le (h : IsLaidOut start cs ts) : ∀ t ∈ ts, start ≤ t.span.start := by
  induction h with
  | nil hgap => simp
  | @cons start gap rest t ts hgap hne hstart hstop hrest ih =>
    refine List.forall_mem_cons.2 ⟨by omega, ?_⟩
    intro u hu
    have := ih u hu
    omega

/-- The spans of tokens are in order and do not overlap. -/
lemma pairwise (h : IsLaidOut start cs ts) : ts.Pairwise (·.span.stop ≤ ·.span.start) := by
  induction h with
  | nil hgap => exact .nil
  | cons hgap hne hstart hstop hrest ih => exact .cons hrest.start_le ih

/-- The text of a token is a part of the text, at the span of the token. -/
lemma exists_eq_append (h : IsLaidOut start cs ts) (ht : t ∈ ts) :
    t.text ≠ "" ∧ ∃ xs zs, cs = xs ++ t.text.toList ++ zs ∧
      t.span = ⟨start + Text.width xs, start + Text.width xs + t.text.utf8ByteSize⟩ := by
  induction h with
  | nil hgap => cases ht
  | @cons start gap rest u ts hgap hne hstart hstop hrest ih =>
    rcases List.mem_cons.1 ht with rfl | ht
    · refine ⟨hne, gap, rest, (List.append_assoc ..).symm, ?_⟩
      rw [← hstart, ← hstop]
    · obtain ⟨hne', xs, zs, rfl, hspan⟩ := ih ht
      refine ⟨hne', gap ++ u.text.toList ++ xs, zs, by simp, ?_⟩
      rw [hspan, hstop, hstart]
      simp [Text.width_append, Nat.add_assoc]

lemma span_isIn (h : IsLaidOut 0 cs ts) (ht : t ∈ ts) : t.span.IsIn cs := by
  obtain ⟨-, xs, zs, rfl, hspan⟩ := h.exists_eq_append ht
  rw [hspan, Nat.zero_add, ← Text.width_toList]
  exact .of_append xs t.text.toList zs

end IsLaidOut

/-- The text of a token by itself is cut into this token alone. -/
lemma Cuts.text_of_mem (h : Cuts start cs ts) (ht : t ∈ ts) :
    Cuts 0 t.text.toList [⟨t.kind, t.text, ⟨0, t.text.utf8ByteSize⟩⟩] := by
  induction h with
  | nil => cases ht
  | dropped hscan hrest ih => exact ih ht
  | @token start c piece rest ts kind hscan hrest ih =>
    rcases List.mem_cons.1 ht with rfl | ht
    · have hsingle := Cuts.single hscan 0
      rw [Nat.zero_add] at hsingle
      rwa [String.toList_ofList, Text.width_ofList]
    · exact ih ht

end Token

/-- **Lexing is total and lossless.**  Every source has tokens.  Their spans are not empty, they lie
in the source and cut no character of it, they hold the texts of the tokens, and they are in order
and do not overlap.  What is before, between and behind the tokens is white space and comments.  And
the text of a token by itself has this token alone. -/
theorem exists_lex_eq_ok (source : String) : ∃ ts, lex source = .ok ts ∧
    (∀ t ∈ ts, t.span.start < t.span.stop ∧ t.span.stop ≤ source.utf8ByteSize ∧
      t.span.IsIn source.toList ∧
      String.ofList (Text.slice t.span.start t.span.stop source.toList) = t.text) ∧
    ts.Pairwise (·.span.stop ≤ ·.span.start) ∧
    Token.IsLaidOut 0 source.toList ts ∧
    ∀ t ∈ ts, lex t.text = .ok [⟨t.kind, t.text, ⟨0, t.text.utf8ByteSize⟩⟩] := by
  obtain ⟨ts, hcuts⟩ := Token.exists_cuts 0 source.toList
  have hlaid := Token.IsLaidOut.of_cuts hcuts
  refine ⟨ts, hcuts.scanFrom_eq_ok, ?_, hlaid.pairwise, hlaid, ?_⟩
  · intro t ht
    obtain ⟨hne, xs, zs, hsource, hspan⟩ := hlaid.exists_eq_append ht
    rw [Nat.zero_add, ← Text.width_toList] at hspan
    have hin : t.span.IsIn source.toList := by
      rw [hspan, hsource]
      exact .of_append xs t.text.toList zs
    have hpos : 0 < Text.width t.text.toList :=
      Text.width_pos fun h => hne (String.toList_inj.1 h)
    refine ⟨?_, by simpa using hin.stop_le_width, hin, ?_⟩
    · rw [hspan]
      exact Nat.lt_add_of_pos_right hpos
    · rw [hspan, hsource, Text.slice_width_append, String.ofList_toList]
  · intro t ht
    exact (hcuts.text_of_mem ht).scanFrom_eq_ok

end TypedLisp
