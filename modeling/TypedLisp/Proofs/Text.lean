import Mathlib.Data.List.Infix
import Mathlib.Tactic.Lemma
import TypedLisp.Span
import TypedLisp.Text.Bytes

/-!
# Positions in a text

A byte of a text is a boundary if it is the first one of a character, or the end of the text.  A
text can be cut at a boundary into the part `p` before it and the part `r` behind it, so what is
said here about boundaries is said about texts `p ++ r`, and what is said about spans about texts
`p ++ q ++ r`, where `q` is the part in the span.
-/

namespace TypedLisp
namespace Text

variable {p q r cs : List Char} {n : Nat}

lemma width_pos (h : cs ≠ []) : 0 < width cs := by
  obtain ⟨c, cs, rfl⟩ := List.exists_cons_of_ne_nil h
  exact Nat.add_pos_left (Char.utf8Size_pos c) _

lemma eq_nil_of_width_eq_zero (h : width cs = 0) : cs = [] := by
  by_contra hne
  exact (width_pos hne).ne' h

lemma width_ofList (cs : List Char) : (String.ofList cs).utf8ByteSize = width cs := by
  induction cs with
  | nil => rfl
  | cons c cs ih => simp [String.ofList_cons, ih]

@[simp] lemma width_toList (s : String) : width s.toList = s.utf8ByteSize := by
  rw [← width_ofList, String.ofList_toList]

/-! ### Cuts -/

@[simp] lemma before_width_append (p r : List Char) : before (width p) (p ++ r) = p := by
  induction p with
  | nil => cases r <;> rfl
  | cons c p ih =>
    have hpos : c.utf8Size + width p ≠ 0 := (Nat.add_pos_left (Char.utf8Size_pos c) _).ne'
    rw [List.cons_append, before, width_cons, if_neg hpos, Nat.add_sub_cancel_left, ih]

@[simp] lemma after_width_append (p r : List Char) : after (width p) (p ++ r) = r := by
  have h := before_append_after (width p) (p ++ r)
  rw [before_width_append] at h
  exact List.append_cancel_left h

lemma slice_width_append (p q r : List Char) :
    slice (width p) (width p + width q) (p ++ q ++ r) = q := by
  rw [slice, Nat.add_sub_cancel_left, List.append_assoc, after_width_append, before_width_append]

/-! ### Boundaries -/

/-- The byte `n` of a text lies between two of its characters, or at one of its ends. -/
def IsBoundary (cs : List Char) (n : Nat) : Prop := ∃ p r, cs = p ++ r ∧ width p = n

lemma isBoundary_append (p r : List Char) : IsBoundary (p ++ r) (width p) := ⟨p, r, rfl, rfl⟩

lemma isBoundary_zero (cs : List Char) : IsBoundary cs 0 := isBoundary_append [] cs

lemma isBoundary_width (cs : List Char) : IsBoundary cs (width cs) :=
  ⟨cs, [], (List.append_nil cs).symm, rfl⟩

lemma IsBoundary.le_width (h : IsBoundary cs n) : n ≤ width cs := by
  obtain ⟨p, r, rfl, rfl⟩ := h
  rw [width_append]
  exact Nat.le_add_right _ _

/-- The boundaries of a text are the positions at which a string may be cut. -/
theorem isBoundary_toList_iff {s : String} :
    IsBoundary s.toList n ↔ String.Pos.Raw.IsValid s ⟨n⟩ := by
  rw [String.Pos.Raw.isValid_iff_exists_append]
  constructor
  · rintro ⟨p, r, h, rfl⟩
    refine ⟨String.ofList p, String.ofList r, ?_, ?_⟩
    · rw [← String.ofList_append, ← h, String.ofList_toList]
    · rw [String.rawEndPos, width_ofList]
  · rintro ⟨s₁, s₂, rfl, h⟩
    refine ⟨s₁.toList, s₂.toList, String.toList_append, ?_⟩
    rw [width_toList]
    exact (congrArg String.Pos.Raw.byteIdx h).symm

end Text

/-! ### Spans -/

open Text

/-- A span lies in a text: it does not end before it starts, and it cuts no character. -/
structure Span.IsIn (s : Span) (cs : List Char) : Prop where
  /-- The span does not end before it starts. -/
  start_le_stop : s.start ≤ s.stop
  /-- The span starts between two characters. -/
  start : IsBoundary cs s.start
  /-- The span ends between two characters. -/
  stop : IsBoundary cs s.stop

namespace Span.IsIn

variable {cs : List Char} {s : Span}

lemma of_append (p q r : List Char) : Span.IsIn ⟨width p, width p + width q⟩ (p ++ q ++ r) where
  start_le_stop := Nat.le_add_right _ _
  start := List.append_assoc p q r ▸ isBoundary_append p (q ++ r)
  stop := width_append p q ▸ isBoundary_append (p ++ q) r

lemma point {n : Nat} (h : IsBoundary cs n) : (Span.point n).IsIn cs := ⟨le_rfl, h, h⟩

/-- A text is cut by a span that lies in it into the parts before, in and behind the span. -/
lemma exists_eq_append (h : s.IsIn cs) :
    ∃ p q r, cs = p ++ q ++ r ∧ s = ⟨width p, width p + width q⟩ := by
  obtain ⟨p, r, hp, hstart⟩ := h.start
  obtain ⟨p', r', hp', hstop⟩ := h.stop
  obtain ⟨start, stop⟩ := s
  have hle : start ≤ stop := h.start_le_stop
  dsimp only at hstart hstop
  subst hstart hstop
  rw [hp] at hp'
  -- of two parts at the start of the text, one goes on to the other
  rcases List.append_eq_append_iff.1 hp' with ⟨q, rfl, hr⟩ | ⟨q, rfl, -⟩
  · exact ⟨p, q, r', by rw [hp, hp'], by rw [width_append]⟩
  · have hq : width q = 0 := by
      rw [width_append] at hle
      omega
    obtain rfl := eq_nil_of_width_eq_zero hq
    exact ⟨p', [], r, by rw [hp], by simp⟩

lemma stop_le_width (h : s.IsIn cs) : s.stop ≤ width cs := h.stop.le_width

end Span.IsIn
end TypedLisp
