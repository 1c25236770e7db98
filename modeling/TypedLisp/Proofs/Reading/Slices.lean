import TypedLisp.Proofs.Reading.Lexing

/-!
# Cutting a part of a text

A piece that lies in a part of a text is found there, too, when the part is cut by itself: no piece
depends on what comes after it.  So the tokens of a text that lie next to each other are the tokens
of the part of the text from the first of them to the last one.
-/

namespace TypedLisp
namespace Token

variable {c : Char} {cs xs ys : List Char} {n start : Nat} {kind? : Option TokenKind}
  {t : Token} {ts us : List Token}

/-! ### Pieces -/

lemma runLength_of_append {p : Char → Bool} (h : runLength p (xs ++ ys) ≤ xs.length) :
    runLength p xs = runLength p (xs ++ ys) := by
  induction xs with
  | nil => exact (Nat.le_zero.1 h).symm
  | cons x xs ih =>
    simp only [runLength, List.cons_append, List.takeWhile_cons] at h ih ⊢
    split
    · next hx =>
      rw [if_pos hx] at h
      simpa using ih (by simpa using h)
    · rfl

lemma stringLength_of_append (h : stringLength (xs ++ ys) ≤ xs.length) :
    stringLength xs = stringLength (xs ++ ys) := by
  fun_induction stringLength xs with
  | case1 => exact (Nat.le_zero.1 h).symm
  | case2 => rfl
  | case3 cs ih | case4 cs ih =>
    simp only [List.cons_append, stringLength, List.length_cons] at h ⊢
    rw [ih (by omega)]
  | case5 cs hbackslash hquote =>
    cases cs with
    | nil =>
      -- a backslash at the end escapes nothing, and with the next character it would be too long
      simp only [List.cons_append, List.nil_append, List.length_cons, List.length_nil] at h ⊢
      rw [stringLength.eq_def] at h ⊢
      split at h <;> first | rfl | omega | simp_all [eq_comm]
    | cons d cs => simp_all [stringLength]
  | case6 c cs hquote hbackslash hquoted hplain ih =>
    have hstep : stringLength (c :: cs ++ ys) = 1 + stringLength (cs ++ ys) := by
      rw [List.cons_append, stringLength] <;> simp_all
    rw [hstep, List.length_cons] at h
    rw [hstep, ih (by omega)]

/-- What the next piece is does not depend on what comes after it. -/
lemma scan_of_append (h : scan c (xs ++ ys) = some (kind?, n)) (hle : n ≤ xs.length) :
    scan c xs = some (kind?, n) := by
  have hrun {p : Char → Bool} (hp : runLength p (xs ++ ys) = n) : runLength p xs = n :=
    (runLength_of_append (by omega)).trans hp
  have hstr (hn : stringLength (xs ++ ys) = n) : stringLength xs = n :=
    (stringLength_of_append (by omega)).trans hn
  unfold scan at h ⊢
  repeat' split at h
  all_goals simp only [Option.some.injEq, Prod.mk.injEq, reduceCtorEq] at h
  all_goals obtain ⟨rfl, hn⟩ := h
  all_goals simp_all

/-! ### Tokens -/

namespace Cuts

/-- The text of a token is cut into this token alone. -/
lemma single {piece rest : List Char} {kind : TokenKind}
    (hscan : scan c (piece ++ rest) = some (some kind, piece.length)) (start : Nat) :
    Cuts start (c :: piece)
      [⟨kind, String.ofList (c :: piece), ⟨start, start + Text.width (c :: piece)⟩⟩] := by
  have hscan' : scan c piece = some (some kind, piece.length) :=
    scan_of_append hscan (Nat.le_refl _)
  have hcuts := @Cuts.token start c piece [] [] kind (by rwa [List.append_nil]) (.nil _)
  rwa [List.append_nil] at hcuts

/-- Before its token that has some tokens before it, a text can be cut in two. -/
lemma exists_of_append_cons (h : Cuts start cs (ts ++ t :: us)) :
    ∃ xs ys, cs = xs ++ ys ∧ Cuts (start + Text.width xs) ys (t :: us) ∧
      t.span.start = start + Text.width xs := by
  generalize hall : ts ++ t :: us = all at h
  induction h generalizing ts with
  | nil start => simp at hall
  | @dropped start c piece rest all hscan hrest ih =>
    obtain ⟨xs, ys, rfl, hys, hstart⟩ := ih hall
    rw [Nat.add_assoc, ← Text.width_append] at hys hstart
    exact ⟨c :: piece ++ xs, ys, (List.append_assoc ..).symm, hys, hstart⟩
  | @token start c piece rest all kind hscan hrest ih =>
    cases ts with
    | nil =>
      obtain ⟨rfl, rfl⟩ := List.cons.inj hall
      exact ⟨[], c :: piece ++ rest, rfl, .token hscan hrest, rfl⟩
    | cons t' ts =>
      obtain ⟨xs, ys, rfl, hys, hstart⟩ := ih (List.cons.inj hall).2
      rw [Nat.add_assoc, ← Text.width_append] at hys hstart
      exact ⟨c :: piece ++ xs, ys, (List.append_assoc ..).symm, hys, hstart⟩

/-- Behind its token that has some tokens behind it, a text can be cut in two. -/
lemma exists_of_concat_append (h : Cuts start cs (ts ++ [t] ++ us)) :
    ∃ xs ys, cs = xs ++ ys ∧ Cuts start xs (ts ++ [t]) ∧ t.span.stop = start + Text.width xs := by
  generalize hall : ts ++ [t] ++ us = all at h
  induction h generalizing ts with
  | nil start => simp at hall
  | @dropped start c piece rest all hscan hrest ih =>
    obtain ⟨xs, ys, rfl, hxs, hstop⟩ := ih hall
    rw [← List.append_assoc] at hscan
    rw [Nat.add_assoc, ← Text.width_append] at hstop
    exact ⟨c :: piece ++ xs, ys, (List.append_assoc ..).symm,
      .dropped (scan_of_append hscan (by simp)) hxs, hstop⟩
  | @token start c piece rest all kind hscan hrest ih =>
    cases ts with
    | nil =>
      obtain ⟨rfl, -⟩ := List.cons.inj hall
      exact ⟨c :: piece, rest, rfl, single hscan start, rfl⟩
    | cons t' ts =>
      obtain ⟨rfl, hts⟩ := List.cons.inj hall
      obtain ⟨xs, ys, rfl, hxs, hstop⟩ := ih hts
      rw [← List.append_assoc] at hscan
      rw [Nat.add_assoc, ← Text.width_append] at hstop
      exact ⟨c :: piece ++ xs, ys, (List.append_assoc ..).symm,
        .token (scan_of_append hscan (by simp)) hxs, hstop⟩

/-- Tokens of a text that lie next to each other are the tokens of a part of it, which goes from
where the first of them starts to where the last one ends. -/
theorem exists_of_infix {before mid after : List Token} {first last : Token}
    (h : Cuts start cs (before ++ mid ++ after)) (hfirst : mid.head? = some first)
    (hlast : mid.getLast? = some last) :
    ∃ xs ys zs, cs = xs ++ ys ++ zs ∧ Cuts (start + Text.width xs) ys mid ∧
      first.span.start = start + Text.width xs ∧
      last.span.stop = start + Text.width xs + Text.width ys := by
  obtain ⟨behind, hmid⟩ := List.head?_eq_some_iff.1 hfirst
  obtain ⟨ahead, hmid'⟩ := List.getLast?_eq_some_iff.1 hlast
  have hcut : Cuts start cs (before ++ first :: (behind ++ after)) := by
    rwa [← List.cons_append, ← hmid, ← List.append_assoc]
  obtain ⟨xs, rest, rfl, hrest, hstart⟩ := hcut.exists_of_append_cons
  have hcut' : Cuts (start + Text.width xs) rest (ahead ++ [last] ++ after) := by
    rwa [← hmid', hmid, List.cons_append]
  obtain ⟨ys, zs, rfl, hys, hstop⟩ := hcut'.exists_of_concat_append
  rw [← hmid'] at hys
  exact ⟨xs, ys, zs, (List.append_assoc ..).symm, hys, hstart, hstop⟩

/-- A text by itself is cut into the tokens that it is cut into as a part of a source, but these are
further to the right there. -/
lemma exists_cuts_zero (h : Cuts start cs ts) :
    ∃ us, Cuts 0 cs us ∧ us.map (·.shift start) = ts := by
  obtain ⟨us, hus⟩ := exists_cuts 0 cs
  have hshift : Cuts start cs (us.map (·.shift start)) := by
    simpa using hus.shift start
  exact ⟨us, hus, hshift.eq h⟩

end Cuts
end Token
end TypedLisp
