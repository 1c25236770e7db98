import Mathlib
import TypedLisp.Proofs.Reading.Layout
import TypedLisp.Proofs.Text

/-!
# Reading two sources as one

Two sources with a line break between them are cut into the tokens of the one followed by the tokens
of the other, and so they are read as the forms of the one followed by the forms of the other.  The
line break ends a comment and whatever token is being scanned; white space in front of it goes on
behind it, but none of that is a token.  A string alone can swallow the line break: one that reaches
the end of the first source without its closing quotation mark.
-/

namespace TypedLisp
namespace Token

variable {c : Char} {cs as bs rest : List Char} {n start : Nat} {ts us : List Token}

/-! ### Runs before a line break -/

lemma runLength_append_cons {p : Char → Bool} (hc : p c = false) (as bs : List Char) :
    runLength p (as ++ c :: bs) = runLength p as := by
  induction as with
  | nil => simp [runLength, hc]
  | cons a as ih =>
    simp only [runLength, List.cons_append, List.takeWhile_cons] at ih ⊢
    split
    · simpa using ih
    · rfl

lemma drop_runLength (p : Char → Bool) (cs : List Char) :
    cs.drop (runLength p cs) = cs.dropWhile p := by
  induction cs with
  | nil => rfl
  | cons c cs ih =>
    simp only [runLength, List.takeWhile_cons, List.dropWhile_cons] at ih ⊢
    split
    · simpa using ih
    · rfl

lemma runLength_append_of_dropWhile_ne_nil {p : Char → Bool} (h : as.dropWhile p ≠ [])
    (bs : List Char) : runLength p (as ++ bs) = runLength p as := by
  induction as with
  | nil => exact absurd rfl h
  | cons a as ih =>
    simp only [runLength, List.cons_append, List.takeWhile_cons, List.dropWhile_cons] at ih h ⊢
    split
    · next ha =>
      rw [if_pos ha] at h
      simpa using ih h
    · rfl

/-- No quotation mark closes a string before the end of the text. -/
def runsOut : List Char → Bool
  | [] => true
  | '"' :: _ => false
  | '\\' :: '\\' :: cs => runsOut cs
  | '\\' :: '"' :: cs => runsOut cs
  | '\\' :: _ => false
  | _ :: cs => runsOut cs

lemma stringLength_append_newline (h : runsOut as = false) (bs : List Char) :
    stringLength (as ++ '\n' :: bs) = stringLength as := by
  fun_induction runsOut as with
  | case1 => cases h
  | case2 => rfl
  | case3 cs ih => simp [stringLength, ih h]
  | case4 cs ih => simp [stringLength, ih h]
  | case5 cs hbackslash hquote =>
    -- the line break escapes as little as the end of the text
    cases cs <;> simp_all [stringLength]
  | case6 c cs hquote hbackslash hquoted hplain ih => simp_all [stringLength]

lemma stringLength_eq_length (h : runsOut as) : stringLength as = as.length := by
  fun_induction runsOut as with
  | case1 => rfl
  | case2 | case5 => cases h
  | case3 cs ih | case4 cs ih =>
    rw [stringLength, ih h, List.length_cons, List.length_cons]
    omega
  | case6 c cs hquote hbackslash hquoted hplain ih =>
    rw [stringLength, ih h, List.length_cons, Nat.add_comm] <;> assumption

/-! ### Pieces before a line break -/

lemma scan_space (hc : isSpace c) (rest : List Char) :
    scan c rest = some (none, runLength isSpace rest) := by
  have hne : c ≠ ';' := by
    rintro rfl
    cases hc
  rw [scan, if_neg (by simpa using hne), if_pos hc]

/-- A piece that starts with white space is all the white space there, and no token. -/
lemma eq_of_scan_space (hc : isSpace c) {kind : Option TokenKind}
    (h : scan c rest = some (kind, n)) : kind = none ∧ runLength isSpace rest = n := by
  rw [scan_space hc] at h
  obtain ⟨rfl, rfl⟩ := Prod.mk.inj (Option.some.inj h)
  exact ⟨rfl, rfl⟩

/-- White space at the end of a text and a string without a closing quotation mark alone go on
behind a line break. -/
lemma scan_append_newline (hspace : isSpace c → rest.dropWhile isSpace ≠ [])
    (hstr : c = '"' → runsOut rest = false) (bs : List Char) :
    scan c (rest ++ '\n' :: bs) = scan c rest := by
  unfold scan
  split
  · rw [runLength_append_cons (by decide)]
  · split
    · next h => rw [runLength_append_of_dropWhile_ne_nil (hspace h)]
    · repeat' split
      all_goals try rfl
      · rw [runLength_append_cons (by decide)]
      · next h => rw [stringLength_append_newline (hstr (by simpa using h))]
      · rw [runLength_append_cons (by decide)]

/-! ### Tokens -/

/-- A token is a string that ends at the byte `stop` without a closing quotation mark. -/
def IsCutOff (t : Token) (stop : Nat) : Prop :=
  t.kind = .str ∧ t.span.stop = stop ∧ runsOut t.text.toList.tail

namespace Cuts

/-- White space before a text joins the white space that the text starts with, if any. -/
lemma space (hc : isSpace c) (h : Cuts (start + c.utf8Size) rest ts) :
    Cuts start (c :: rest) ts := by
  have halone (hrun : runLength isSpace rest = 0) : Cuts start (c :: rest) ts := by
    refine @Cuts.dropped start c [] rest ts ?_ h
    rw [List.nil_append, scan_space hc, hrun, List.length_nil]
  cases h with
  | nil => exact halone rfl
  | @dropped _ d piece rest _ hscan hrest =>
    by_cases hd : isSpace d
    · obtain ⟨-, hrun⟩ := eq_of_scan_space hd hscan
      refine @Cuts.dropped start c (d :: piece) rest ts ?_ ?_
      · rw [List.cons_append, scan_space hc, runLength_cons_of_pos hd, hrun, List.length_cons]
      · rwa [Nat.add_assoc] at hrest
    · exact halone (runLength_cons_of_neg hd)
  | @token _ d piece rest _ kind hscan hrest =>
    have hd : ¬ isSpace d := by
      intro hd
      cases (eq_of_scan_space hd hscan).1
    exact halone (runLength_cons_of_neg hd)

lemma spaces (hcs : ∀ c ∈ cs, isSpace c) (h : Cuts (start + Text.width cs) rest ts) :
    Cuts start (cs ++ rest) ts := by
  induction cs generalizing start with
  | nil => exact h
  | cons c cs ih =>
    obtain ⟨hc, hcs⟩ := List.forall_mem_cons.1 hcs
    rw [Text.width_cons, ← Nat.add_assoc] at h
    exact space hc (ih hcs h)

lemma eq_nil_of_nil (h : Cuts start [] ts) : ts = [] :=
  h.eq (.nil start)

/-- Behind a line break the tokens of a text go on with those of another text, unless the last one
of them is a string that is cut off. -/
theorem append (h : Cuts start as ts)
    (hclosed : ∀ t ∈ ts.getLast?, ¬ t.IsCutOff (start + Text.width as))
    (hbs : Cuts (start + Text.width as + 1) bs us) :
    Cuts start (as ++ '\n' :: bs) (ts ++ us) := by
  induction h with
  | nil start => exact space rfl hbs
  | @dropped start c piece rest ts hscan hrest ih =>
    rw [Text.width_append, ← Nat.add_assoc] at hclosed hbs
    by_cases hblank : isSpace c ∧ (piece ++ rest).dropWhile isSpace = []
    · -- all that is left is white space, which goes on behind the line break
      obtain ⟨hc, hdrop⟩ := hblank
      obtain ⟨-, hrun⟩ := eq_of_scan_space hc hscan
      have hnil : rest = [] := by
        rw [← drop_runLength, hrun, List.drop_left] at hdrop
        exact hdrop
      subst hnil
      obtain rfl := hrest.eq_nil_of_nil
      have hall : ∀ d ∈ c :: piece ++ [], isSpace d :=
        List.forall_mem_cons.2 ⟨hc, List.dropWhile_eq_nil_iff.1 hdrop⟩
      refine spaces hall (space rfl ?_)
      rwa [Text.width_append, ← Nat.add_assoc]
    · have hne : c ≠ '"' := by
        rintro rfl
        cases hscan
      have hscan' : scan c (piece ++ (rest ++ '\n' :: bs)) = some (none, piece.length) := by
        rw [← List.append_assoc, ← hscan]
        exact scan_append_newline (fun h h' => hblank ⟨h, h'⟩) (fun h => absurd h hne) bs
      have hcuts := Cuts.dropped hscan' (ih hclosed hbs)
      rwa [← List.append_assoc] at hcuts
  | @token start c piece rest ts kind hscan hrest ih =>
    rw [Text.width_append, ← Nat.add_assoc] at hclosed hbs
    have hc : ¬ isSpace c := by
      intro hc
      cases (eq_of_scan_space hc hscan).1
    have hstr : c = '"' → runsOut (piece ++ rest) = false := by
      rintro rfl
      rw [Bool.eq_false_iff]
      intro hruns
      -- otherwise the token is a string that is cut off
      obtain ⟨hkind, hlength⟩ := Prod.mk.inj (Option.some.inj hscan)
      obtain rfl := Option.some.inj hkind
      rw [stringLength_eq_length hruns, List.length_append] at hlength
      obtain rfl : rest = [] := List.eq_nil_of_length_eq_zero (by omega)
      obtain rfl := hrest.eq_nil_of_nil
      exact hclosed _ rfl ⟨rfl, rfl, by simpa using hruns⟩
    have hscan' : scan c (piece ++ (rest ++ '\n' :: bs)) = some (some kind, piece.length) := by
      rw [← List.append_assoc, ← hscan]
      exact scan_append_newline (fun h => absurd h hc) hstr bs
    have hclosed' : ∀ t ∈ ts.getLast?,
        ¬ t.IsCutOff (start + Text.width (c :: piece) + Text.width rest) := by
      intro t ht
      refine hclosed t ?_
      cases ts with
      | nil => cases ht
      | cons t' ts => rwa [List.getLast?_cons_cons]
    have hcuts := Cuts.token hscan' (ih hclosed' hbs)
    rwa [← List.append_assoc] at hcuts

end Cuts
end Token

lemma lex_append_newline {a b : String} {ts us : List Token} (ha : lex a = .ok ts)
    (hclosed : ∀ t ∈ ts.getLast?, ¬ t.IsCutOff a.utf8ByteSize) (hb : lex b = .ok us) :
    lex (a ++ "\n" ++ b) = .ok (ts ++ us.map (·.shift (a.utf8ByteSize + 1))) := by
  have hcutsa : Token.Cuts 0 a.toList ts := Token.scanFrom_eq_ok_iff.1 ha
  have hcutsb := (Token.scanFrom_eq_ok_iff.1 hb).shift (a.utf8ByteSize + 1)
  have hcuts : Token.Cuts 0 (a.toList ++ '\n' :: b.toList)
      (ts ++ us.map (·.shift (a.utf8ByteSize + 1))) := by
    rw [← Text.width_toList] at hclosed hcutsb ⊢
    refine hcutsa.append ?_ ?_
    · simpa using hclosed
    · simpa [Nat.add_assoc] using hcutsb
  rw [lex, ← hcuts.scanFrom_eq_ok]
  simp

/-- **Lexing is compositional at line breaks**: the tokens of any two texts with a line break
between them are those of the first one, followed by those of the second one, which are as many
bytes further to the right as the first text and the line break take, unless the last token of the
first text is a string that reaches its end without a closing quotation mark. -/
theorem exists_lex_append_newline (a b : String) :
    ∃ ts us, lex a = .ok ts ∧ lex b = .ok us ∧
      ((∀ t ∈ ts.getLast?, ¬ t.IsCutOff a.utf8ByteSize) →
        lex (a ++ "\n" ++ b) = .ok (ts ++ us.map (·.shift (a.utf8ByteSize + 1)))) := by
  obtain ⟨ts, hts⟩ := Token.exists_scanFrom_eq_ok 0 a.toList
  obtain ⟨us, hus⟩ := Token.exists_scanFrom_eq_ok 0 b.toList
  exact ⟨ts, us, hts, hus, fun hclosed => lex_append_newline hts hclosed hus⟩

/-- A string with an escape that is none, a comment and a carriage return before the line break, and
a string without a closing quotation mark behind it. -/
theorem lex_append_newline_of_comment :
    lex ("\"é\\n ; c\r" ++ "\n" ++ "x \"y") =
      .ok ([⟨.str, "\"é", ⟨0, 3⟩⟩, ⟨.atom, "\\n", ⟨3, 5⟩⟩] ++
        [⟨.atom, "x", ⟨11 + 0, 11 + 1⟩⟩, ⟨.str, "\"y", ⟨11 + 2, 11 + 4⟩⟩]) := by
  obtain ⟨ts, us, hts, hus, happend⟩ := exists_lex_append_newline "\"é\\n ; c\r" "x \"y"
  have ha : lex "\"é\\n ; c\r" = .ok [⟨.str, "\"é", ⟨0, 3⟩⟩, ⟨.atom, "\\n", ⟨3, 5⟩⟩] := by cbv
  have hb : lex "x \"y" = .ok [⟨.atom, "x", ⟨0, 1⟩⟩, ⟨.str, "\"y", ⟨2, 4⟩⟩] := by cbv
  obtain rfl := Except.ok.inj (hts.symm.trans ha)
  obtain rfl := Except.ok.inj (hus.symm.trans hb)
  refine (happend ?_).trans (by cbv)
  rintro t ⟨⟩ ⟨⟨⟩, -⟩

/-! ### Programs -/

namespace Grammar

variable {H : Type}

lemma tokens_append (p q : Program) : tokens (p ++ q) = tokens p ++ tokens q := by
  induction p with
  | nil => rfl
  | cons x p ih => rw [List.cons_append, tokens, ih, tokens, List.append_assoc]

lemma depth_append (p q : Program) : depth (p ++ q) = max (depth p) (depth q) := by
  induction p with
  | nil => simp [depth]
  | cons x p ih => rw [List.cons_append, depth, ih, depth, Nat.max_assoc]

lemma nodes_append (p q : Program) : nodes (H := H) (p ++ q) = nodes p ++ nodes q := by
  induction p with
  | nil => rfl
  | cons x p ih => rw [List.cons_append, nodes, ih, nodes, List.cons_append]

end Grammar

variable {H : Type}

/-- Tokens that are but for their places those of a source that is read are read as forms that are
the same up to spans. -/
lemma exists_readTokens_of_map_lexeme_eq {ts us : List Token} {source : String}
    {forms : List (Node H)} (h : readTokens ts source = .ok forms)
    (hlexemes : ts.map Token.lexeme = us.map Token.lexeme) (source' : String) :
    ∃ forms', readTokens us source' = .ok forms' ∧ List.Forall₂ Node.Agrees forms forms' := by
  have hstart : (Reader.start : Reader H).Agrees .start := ⟨Reader.place_start_agrees, .nil, rfl⟩
  have hagree : Except.Agree (List.Forall₂ Node.Agrees) (readTokens ts source)
      (readTokens (H := H) us source') :=
    (Reader.run_agree hstart hlexemes).bind fun _ _ h => Reader.finish_agree h _ _
  rw [h] at hagree
  generalize readTokens us source' = y at hagree
  cases hagree with
  | ok hforms => exact ⟨_, rfl, hforms⟩

lemma exists_lex_of_read_eq_ok {source : String} {forms : List (Node H)}
    (h : read source = .ok forms) :
    ∃ ts, lex source = .ok ts ∧ readTokens ts source = .ok forms :=
  Except.exists_of_bind_eq_ok h

/-- **Two sources with a line break between them are read as the forms of the one followed by the
forms of the other**, up to the spans of the latter, unless the last token of the first source is a
string that reaches its end without a closing quotation mark. -/
theorem exists_read_append {a b : String} {ts : List Token} {as bs : List (Node H)}
    (hlex : lex a = .ok ts) (hclosed : ∀ t ∈ ts.getLast?, ¬ t.IsCutOff (Text.width a.toList))
    (ha : read a = .ok as) (hb : read b = .ok bs) :
    ∃ bs', read (a ++ "\n" ++ b) = .ok (as ++ bs') ∧ List.Forall₂ Node.Agrees bs bs' := by
  obtain ⟨ts', hlex', ha⟩ := exists_lex_of_read_eq_ok ha
  obtain rfl := Except.ok.inj (hlex.symm.trans hlex')
  obtain ⟨us, hus, hb⟩ := exists_lex_of_read_eq_ok hb
  have hwhole := lex_append_newline hlex (by rwa [Text.width_toList] at hclosed) hus
  have hlexemes : us.map Token.lexeme =
      (us.map (·.shift (a.utf8ByteSize + 1))).map Token.lexeme := by
    rw [List.map_map]
    rfl
  obtain ⟨bs', hb', hagree⟩ := exists_readTokens_of_map_lexeme_eq hb hlexemes b
  refine ⟨bs', ?_, hagree⟩
  -- the derivations of the two sources make up one of the whole
  obtain ⟨p, hp, hpdepth, rfl⟩ := readTokens_eq_ok_iff.1 ha
  obtain ⟨q, hq, hqdepth, rfl⟩ := readTokens_eq_ok_iff.1 hb'
  rw [read, hwhole]
  refine readTokens_eq_ok_iff.2 ⟨p ++ q, ?_, ?_, Grammar.nodes_append p q⟩
  · rw [Grammar.tokens_append, hp, hq]
  · rw [Grammar.depth_append]
    exact Nat.max_le.2 ⟨hpdepth, hqdepth⟩

end TypedLisp
