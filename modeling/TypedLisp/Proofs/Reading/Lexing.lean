import Mathlib.Tactic.Lemma
import TypedLisp.Token.Scan

/-!
# Cutting a text into tokens

Every text can be cut into tokens.  `Cuts start cs ts` says that the text `cs`, which starts at the
byte `start` of the source, is cut into the tokens `ts`: piece by piece, where a piece is dropped or
is a token.  All that is said about the tokens of a text is an induction on its pieces.

What the tokens are but for their places, their lexemes, depends on the characters alone and not on
where in the source they are.  `Lexes cs ls` says that the text `cs` has the lexemes `ls`.  An atom
and a keyword reach as far as there are characters of atoms, so they keep their lexemes only before
a text that does not go on with one; all other tokens end by themselves.
-/

namespace TypedLisp
namespace Token

/-- What a token is but for its place. -/
def lexeme (t : Token) : TokenKind × String := (t.kind, t.text)

variable {c : Char} {cs rest : List Char} {n start : Nat} {kind? : Option TokenKind}
  {kind : TokenKind} {ts us : List Token}

/-! ### Pieces -/

/-- Some piece starts with any character. -/
lemma exists_scan_eq_some (c : Char) (rest : List Char) :
    ∃ kind? n, scan c rest = some (kind?, n) := by
  unfold scan
  repeat' split
  all_goals try exact ⟨_, _, rfl⟩
  -- a character that is neither blank nor of an atom is one of the others
  simp_all [isAtomChar, isDelimiter]

lemma runLength_cons_of_pos {p : Char → Bool} (hc : p c) :
    runLength p (c :: cs) = runLength p cs + 1 := by
  simp [runLength, hc]

lemma runLength_cons_of_neg {p : Char → Bool} (hc : ¬ p c) : runLength p (c :: cs) = 0 := by
  simp [runLength, hc]

lemma runLength_le_length (p : Char → Bool) (cs : List Char) : runLength p cs ≤ cs.length :=
  (List.takeWhile_prefix p).length_le

lemma stringLength_le_length (cs : List Char) : stringLength cs ≤ cs.length := by
  fun_induction stringLength cs <;> simp_all <;> omega

/-- A piece ends where the text ends, at the latest. -/
lemma length_le_of_scan (h : scan c rest = some (kind?, n)) : n ≤ rest.length := by
  have hrun (p : Char → Bool) : runLength p rest ≤ rest.length := runLength_le_length p rest
  have hstr := stringLength_le_length rest
  unfold scan at h
  repeat' split at h
  all_goals simp only [Option.some.injEq, Prod.mk.injEq, reduceCtorEq] at h
  all_goals obtain ⟨rfl, rfl⟩ := h
  all_goals first | exact hrun _ | exact hstr | exact Nat.zero_le _

lemma scanFrom_of_dropped (h : scan c rest = some (none, n)) :
    scanFrom start (c :: rest) =
      scanFrom (start + Text.width (c :: rest.take n)) (rest.drop n) := by
  rw [scanFrom, h]
  dsimp only
  split <;> simp_all

lemma scanFrom_of_token (h : scan c rest = some (some kind, n)) :
    scanFrom start (c :: rest) =
      (scanFrom (start + Text.width (c :: rest.take n)) (rest.drop n)).map fun ts =>
        ⟨kind, String.ofList (c :: rest.take n),
          ⟨start, start + Text.width (c :: rest.take n)⟩⟩ :: ts := by
  rw [scanFrom, h]
  dsimp only
  split <;> simp_all [Except.map]

/-- The text that starts at the byte `start` of the source is cut into some tokens. -/
inductive Cuts : Nat → List Char → List Token → Prop
  /-- There is nothing in the empty text. -/
  | nil (start : Nat) : Cuts start [] []
  /-- The first piece is white space or a comment. -/
  | dropped {start : Nat} {c : Char} {piece rest : List Char} {ts : List Token}
      (hscan : scan c (piece ++ rest) = some (none, piece.length))
      (hrest : Cuts (start + Text.width (c :: piece)) rest ts) :
      Cuts start (c :: piece ++ rest) ts
  /-- The first piece is a token. -/
  | token {start : Nat} {c : Char} {piece rest : List Char} {ts : List Token} {kind : TokenKind}
      (hscan : scan c (piece ++ rest) = some (some kind, piece.length))
      (hrest : Cuts (start + Text.width (c :: piece)) rest ts) :
      Cuts start (c :: piece ++ rest)
        (⟨kind, String.ofList (c :: piece), ⟨start, start + Text.width (c :: piece)⟩⟩ :: ts)

/-- Every text can be cut into tokens. -/
theorem exists_cuts (start : Nat) (cs : List Char) : ∃ ts, Cuts start cs ts := by
  match cs with
  | [] => exact ⟨[], .nil start⟩
  | c :: rest =>
    obtain ⟨kind?, n, hscan⟩ := exists_scan_eq_some c rest
    have hlength : (rest.take n).length = n := List.length_take_of_le (length_le_of_scan hscan)
    have hlt : (rest.drop n).length < rest.length + 1 := by
      rw [List.length_drop]
      omega
    obtain ⟨ts, hts⟩ := exists_cuts (start + Text.width (c :: rest.take n)) (rest.drop n)
    generalize rest.take n = piece, rest.drop n = behind, rest.take_append_drop n = heq at *
    subst heq hlength
    cases kind? with
    | none => exact ⟨ts, .dropped hscan hts⟩
    | some kind => exact ⟨_, .token hscan hts⟩
termination_by cs.length

namespace Cuts

lemma scanFrom_eq_ok (h : Cuts start cs ts) : scanFrom start cs = .ok ts := by
  induction h with
  | nil start => rw [scanFrom]
  | dropped hscan _ ih =>
    rw [List.cons_append, scanFrom_of_dropped hscan, List.take_left, List.drop_left, ih]
  | token hscan _ ih =>
    rw [List.cons_append, scanFrom_of_token hscan, List.take_left, List.drop_left, ih]
    rfl

lemma eq (h : Cuts start cs ts) (h' : Cuts start cs us) : ts = us :=
  Except.ok.inj (h.scanFrom_eq_ok.symm.trans h'.scanFrom_eq_ok)

/-- A text that is further to the right in the source is cut into the same tokens there. -/
lemma shift (h : Cuts start cs ts) (d : Nat) : Cuts (start + d) cs (ts.map (·.shift d)) := by
  induction h with
  | nil start => exact .nil _
  | dropped hscan _ ih =>
    rw [Nat.add_right_comm] at ih
    exact .dropped hscan ih
  | @token start c piece rest ts kind hscan _ ih =>
    rw [Nat.add_right_comm] at ih
    have h := Cuts.token hscan ih
    rwa [Nat.add_right_comm start d] at h

end Cuts

lemma scanFrom_eq_ok_iff : scanFrom start cs = .ok ts ↔ Cuts start cs ts := by
  constructor
  · intro h
    obtain ⟨us, hus⟩ := exists_cuts start cs
    obtain rfl := Except.ok.inj (h.symm.trans hus.scanFrom_eq_ok)
    exact hus
  · exact Cuts.scanFrom_eq_ok

theorem exists_scanFrom_eq_ok (start : Nat) (cs : List Char) :
    ∃ ts, scanFrom start cs = .ok ts := by
  obtain ⟨ts, hts⟩ := exists_cuts start cs
  exact ⟨ts, hts.scanFrom_eq_ok⟩

/-! ### Lexemes -/

/-- The text `cs` is cut into tokens with the lexemes `ls`, wherever in the source it is. -/
def Lexes (cs : List Char) (ls : List (TokenKind × String)) : Prop :=
  ∀ start, ∃ ts, scanFrom start cs = .ok ts ∧ ts.map lexeme = ls

namespace Lexes

variable {ls : List (TokenKind × String)}

lemma nil : Lexes [] [] := fun _ => ⟨[], by rw [scanFrom], rfl⟩

lemma drop (hscan : scan c rest = some (none, n)) (h : Lexes (rest.drop n) ls) :
    Lexes (c :: rest) ls := by
  intro start
  rw [scanFrom_of_dropped hscan]
  exact h _

lemma token (hscan : scan c rest = some (some kind, n)) (h : Lexes (rest.drop n) ls) :
    Lexes (c :: rest) ((kind, String.ofList (c :: rest.take n)) :: ls) := by
  intro start
  obtain ⟨ts, hts, rfl⟩ := h (start + Text.width (c :: rest.take n))
  rw [scanFrom_of_token hscan, hts]
  exact ⟨_, rfl, rfl⟩

/-- A piece that is a whole text `name` before another one is a token. -/
lemma append (name : List Char) (hscan : scan c (name ++ rest) = some (some kind, name.length))
    (h : Lexes rest ls) : Lexes (c :: name ++ rest) ((kind, String.ofList (c :: name)) :: ls) := by
  have hdrop : Lexes ((name ++ rest).drop name.length) ls := by rwa [List.drop_left]
  have := token hscan hdrop
  rwa [List.take_left] at this

lemma opening (h : Lexes rest ls) : Lexes ('(' :: rest) ((.opening, "(") :: ls) :=
  append [] rfl h

lemma closing (h : Lexes rest ls) : Lexes (')' :: rest) ((.closing, ")") :: ls) :=
  append [] rfl h

lemma quote (h : Lexes rest ls) : Lexes ('\'' :: rest) ((.quote, "'") :: ls) :=
  append [] rfl h

lemma colon (h : Lexes rest ls) : Lexes (':' :: rest) ((.colon, ":") :: ls) :=
  append [] rfl h

end Lexes

/-! ### Names -/

/-- The characters of a name that an atom or a keyword may have. -/
def IsName (cs : List Char) : Prop := ∀ c ∈ cs, isAtomChar c

/-- A name that can be an atom: there is something of it, and it does not start like a comment. -/
def IsAtomName (cs : List Char) : Prop := cs ≠ [] ∧ IsName cs ∧ cs.head? ≠ some ';'

/-- A text that does not go on with a character of a name. -/
def Ends (rest : List Char) : Prop := ∀ c ∈ rest.head?, ¬ isAtomChar c

lemma ends_nil : Ends [] := by simp [Ends]

lemma ends_cons (h : ¬ isAtomChar c) : Ends (c :: rest) := by
  simpa [Ends] using h

lemma runLength_append (h : IsName cs) (hrest : Ends rest) :
    runLength isAtomChar (cs ++ rest) = cs.length := by
  have hnone : rest.takeWhile isAtomChar = [] := by
    cases rest with
    | nil => rfl
    | cons c rest => exact List.takeWhile_cons_of_neg (hrest c rfl)
  rw [runLength, List.takeWhile_append_of_pos h, hnone, List.append_nil]

lemma scan_atomChar (hc : isAtomChar c) (hne : c ≠ ';') (rest : List Char) :
    scan c rest = some (some .atom, runLength isAtomChar rest) := by
  simp_all [scan, isAtomChar, isDelimiter]

variable {ls : List (TokenKind × String)}

lemma Lexes.atom (hname : IsAtomName cs) (hrest : Ends rest) (h : Lexes rest ls) :
    Lexes (cs ++ rest) ((.atom, String.ofList cs) :: ls) := by
  obtain ⟨hne, hall, hhead⟩ := hname
  cases cs with
  | nil => exact absurd rfl hne
  | cons c cs =>
    obtain ⟨hc, hcs⟩ := List.forall_mem_cons.1 hall
    refine Lexes.append cs ?_ h
    rw [scan_atomChar hc (by simpa using hhead), runLength_append hcs hrest]

lemma Lexes.keyword (hname : IsName cs) (hrest : Ends rest) (h : Lexes rest ls) :
    Lexes ('.' :: cs ++ rest) ((.keyword, String.ofList ('.' :: cs)) :: ls) := by
  refine Lexes.append cs ?_ h
  rw [← runLength_append hname hrest]
  rfl

/-- One blank between tokens. -/
lemma Lexes.blank (hc : isSpace c) (hrest : ∀ d ∈ rest.head?, ¬ isSpace d) (h : Lexes rest ls) :
    Lexes (c :: rest) ls := by
  have hne : c ≠ ';' := by
    rintro rfl
    simp [isSpace] at hc
  have hrun : runLength isSpace rest = 0 := by
    cases rest with
    | nil => rfl
    | cons d rest => simp [runLength, hrest d rfl]
  refine Lexes.drop (n := 0) ?_ h
  rw [scan, if_neg (by simpa using hne), if_pos hc, hrun]

/-! ### The texts of tokens -/

/-- The text of an atom is a name, and that of a keyword a period and a name. -/
def IsShaped (t : Token) : Prop :=
  (t.kind = .atom → IsAtomName t.text.toList) ∧
    (t.kind = .keyword → ∃ name, t.text.toList = '.' :: name ∧ IsName name)

lemma isName_take_runLength (cs : List Char) : IsName (cs.take (runLength isAtomChar cs)) := by
  have htake : cs.take (runLength isAtomChar cs) = cs.takeWhile isAtomChar :=
    (List.prefix_iff_eq_take.1 (List.takeWhile_prefix isAtomChar)).symm
  intro c hc
  rw [htake] at hc
  exact List.all_eq_true.1 List.all_takeWhile c hc

lemma isShaped_of_scan {piece : List Char} {span : Span}
    (h : scan c (piece ++ rest) = some (some kind, piece.length)) :
    IsShaped ⟨kind, String.ofList (c :: piece), span⟩ := by
  have hname (hlength : runLength isAtomChar (piece ++ rest) = piece.length) : IsName piece := by
    have htake := isName_take_runLength (piece ++ rest)
    rwa [hlength, List.take_left] at htake
  unfold scan at h
  repeat' split at h
  all_goals simp only [Option.some.injEq, Prod.mk.injEq, reduceCtorEq, false_and] at h
  all_goals obtain ⟨rfl, hlength⟩ := h
  all_goals simp only [IsShaped, reduceCtorEq, false_implies, and_self, String.toList_ofList]
  · next hcomment _ _ _ _ _ hatom =>
    refine ⟨fun _ => ⟨by simp, ?_, by simpa using hcomment⟩, trivial⟩
    exact List.forall_mem_cons.2 ⟨hatom, hname hlength⟩
  · next hperiod =>
    obtain rfl : c = '.' := by simpa using hperiod
    exact ⟨trivial, fun _ => ⟨_, rfl, hname hlength⟩⟩

theorem isShaped_of_scanFrom (start : Nat) (cs : List Char) (h : scanFrom start cs = .ok ts) :
    ∀ t ∈ ts, IsShaped t := by
  induction scanFrom_eq_ok_iff.1 h with
  | nil start => simp
  | dropped _ hrest ih => exact ih hrest.scanFrom_eq_ok
  | token hscan hrest ih =>
    exact List.forall_mem_cons.2 ⟨isShaped_of_scan hscan, ih hrest.scanFrom_eq_ok⟩

end Token
end TypedLisp
