import Mathlib.Data.List.Basic
import TypedLisp.Proofs.Interface

/-!
# Symbols are unambiguous

The codes of characters form a prefix code.  A plain character is its own code, and no other code
starts with it; the codes of two letters and those in hexadecimal start with `z` or `Z`, and their
next character is a letter in the first and a digit in the second; and a code in hexadecimal goes on
to the first `U`.  So a symbol is read back from left to right, and different names have different
symbols.
-/

namespace TypedLisp
namespace Symbol

variable {c d : Char} {p : Char × Char}

/-! ### Plain characters -/

lemma ne_of_isPlain (h : isPlain c) : c ≠ 'z' ∧ c ≠ 'Z' := by
  constructor
  · rintro rfl
    exact absurd h (by decide)
  · rintro rfl
    exact absurd h (by decide)

lemma isAlphanum_of_isPlain (h : isPlain c) : c.isAlphanum := by
  simp only [isPlain, Bool.or_eq_true, Bool.and_eq_true, decide_eq_true_eq, Char.le_def] at h
  simp only [Char.isAlphanum, Char.isAlpha, Char.isUpper, Char.isLower, Char.isDigit]
  grind

/-! ### Common characters -/

/-- The characters that have a code of two letters. -/
def common : List Char :=
  ['z', 'Z', '(', ')', '[', ']', ':', '&', '|', '^', '$', '=', '>', '#', '.', '<', '-', '!', '+',
    '\'', '\\', '/', '*', '_', '%']

lemma mem_common_of_pair? (h : pair? c = some p) : c ∈ common := by
  unfold pair? at h
  split at h
  all_goals cases h
  all_goals decide

/-- A code of two letters is that of one character. -/
lemma eq_of_pair? (hc : pair? c = some p) (hd : pair? d = some p) : c = d := by
  have hnodup : (common.map pair?).Nodup := by simp [common, pair?]
  exact List.inj_on_of_nodup_map hnodup (mem_common_of_pair? hc) (mem_common_of_pair? hd)
    (hc.trans hd.symm)

lemma of_pair? (h : pair? c = some p) : (p.1 = 'z' ∨ p.1 = 'Z') ∧ p.2.isAlpha := by
  unfold pair? at h
  split at h
  all_goals cases h
  all_goals decide

/-! ### Codes in hexadecimal -/

/-- The value of a hexadecimal digit. -/
def digitValue (c : Char) : Nat := "0123456789abcdef".toList.idxOf c

/-- The number that hexadecimal digits stand for. -/
def hexValue (ds : List Char) : Nat := ds.foldl (fun n d => 16 * n + digitValue d) 0

lemma digitValue_digitChar {n : Nat} (h : n < 16) : digitValue n.digitChar = n := by
  have hall : ∀ n < 16, digitValue n.digitChar = n := by decide
  exact hall n h

lemma hexValue_toDigits (n : Nat) : hexValue (Nat.toDigits 16 n) = n := by
  induction n using Nat.strong_induction_on with
  | _ n ih =>
    rw [Nat.toDigits_eq_if (by decide)]
    split
    · next hn => simp [hexValue, digitValue_digitChar hn]
    · next hn =>
      have hdiv := ih (n / 16) (by omega)
      have hmod := digitValue_digitChar (Nat.mod_lt n (y := 16) (by decide))
      simp only [hexValue, List.foldl_append, List.foldl_cons, List.foldl_nil] at hdiv ⊢
      rw [hdiv, hmod]
      omega

lemma exists_digitChar_of_mem_toDigits {n : Nat} (h : c ∈ Nat.toDigits 16 n) :
    ∃ k < 16, c = k.digitChar := by
  induction n using Nat.strong_induction_on with
  | _ n ih =>
    rw [Nat.toDigits_eq_if (by decide)] at h
    split at h
    · next hn => exact ⟨n, hn, List.mem_singleton.1 h⟩
    · next hn =>
      rcases List.mem_append.1 h with h | h
      · exact ih (n / 16) (by omega) h
      · exact ⟨n % 16, Nat.mod_lt n (by decide), List.mem_singleton.1 h⟩

/-- The hexadecimal digits of a character start with a digit, stand for its code point, and are
letters and digits other than `U`. -/
lemma of_hexDigits (c : Char) :
    (∃ d ds, hexDigits c = d :: ds ∧ d.isDigit) ∧ hexValue (hexDigits c) = c.toNat ∧
      ∀ d ∈ hexDigits c, d.isAlphanum ∧ d ≠ 'U' := by
  have hvalue := hexValue_toDigits c.toNat
  have hdigits : ∀ k < 16, k.digitChar.isAlphanum ∧ k.digitChar ≠ 'U' := by decide
  have hmem : ∀ d ∈ Nat.toDigits 16 c.toNat, d.isAlphanum ∧ d ≠ 'U' := by
    intro d hd
    obtain ⟨k, hk, rfl⟩ := exists_digitChar_of_mem_toDigits hd
    exact hdigits k hk
  unfold hexDigits
  split
  · next h => exact absurd h Nat.toDigits_ne_nil
  · next d ds h =>
    rw [h] at hvalue hmem
    split
    · next hd => exact ⟨⟨d, ds, rfl, hd⟩, hvalue, hmem⟩
    · -- a zero in front changes no value
      refine ⟨⟨'0', d :: ds, rfl, by decide⟩, ?_, ?_⟩
      · rw [← hvalue]
        rfl
      · intro e he
        rcases List.mem_cons.1 he with rfl | he
        · decide
        · exact hmem e he

/-! ### The code of a character -/

/-- The ways to encode a character. -/
inductive Codes (c : Char) : List Char → Prop where
  | plain (h : isPlain c) : Codes c [c]
  | pair {a b : Char} (h : pair? c = some (a, b)) : Codes c [a, b]
  | hex : Codes c ('z' :: (hexDigits c ++ ['U']))

lemma codes_encodeChar (c : Char) : Codes c (encodeChar c) := by
  unfold encodeChar
  split
  · next h => exact .plain h
  · split
    · next a b h => exact .pair h
    · exact .hex

variable {cs ds r r' : List Char}

/-- A plain character starts no other code. -/
lemma Codes.eq_of_plain (hc : isPlain c) (hd : Codes d ds) (h : c :: r = ds ++ r') :
    c = d ∧ r = r' := by
  obtain ⟨hz, hZ⟩ := ne_of_isPlain hc
  cases hd with
  | plain =>
    obtain ⟨rfl, rfl⟩ := List.cons.inj h
    exact ⟨rfl, rfl⟩
  | pair hp =>
    obtain ⟨rfl, -⟩ := List.cons.inj h
    rcases (of_pair? hp).1 with h | h
    · exact absurd h hz
    · exact absurd h hZ
  | hex => exact absurd (List.cons.inj h).1 hz

/-- Two letters are no code in hexadecimal. -/
lemma not_hex_of_pair {a b : Char} (hc : pair? c = some (a, b)) :
    a :: b :: r ≠ 'z' :: (hexDigits d ++ ['U']) ++ r' := by
  intro h
  obtain ⟨⟨e, es, he, hdigit⟩, -⟩ := of_hexDigits d
  rw [he] at h
  obtain ⟨-, hb⟩ := List.cons.inj h
  obtain ⟨rfl, -⟩ := List.cons.inj hb
  -- a letter is no digit
  have halpha := (of_pair? hc).2
  simp only [Char.isAlpha, Char.isUpper, Char.isLower, Char.isDigit] at halpha hdigit
  grind

/-- Texts up to the first place of a character that they do not contain. -/
lemma eq_of_append_cons_eq (hc : c ∉ cs) (hd : c ∉ ds) (h : cs ++ c :: r = ds ++ c :: r') :
    cs = ds ∧ r = r' := by
  induction cs generalizing ds with
  | nil =>
    cases ds with
    | nil => exact ⟨rfl, (List.cons.inj h).2⟩
    | cons d ds => exact absurd ((List.cons.inj h).1 ▸ List.mem_cons_self) hd
  | cons b cs ih =>
    cases ds with
    | nil => exact absurd ((List.cons.inj h).1 ▸ List.mem_cons_self) hc
    | cons d ds =>
      obtain ⟨rfl, hrest⟩ := List.cons.inj h
      obtain ⟨rfl, rfl⟩ := ih (fun hm => hc (List.mem_cons_of_mem b hm))
        (fun hm => hd (List.mem_cons_of_mem b hm)) hrest
      exact ⟨rfl, rfl⟩

/-- What starts with the codes of two characters starts with one code. -/
lemma Codes.append_inj (hc : Codes c cs) (hd : Codes d ds) (h : cs ++ r = ds ++ r') :
    c = d ∧ r = r' := by
  cases hc with
  | plain hc => exact hd.eq_of_plain hc h
  | @pair a b hc =>
    cases hd with
    | plain hd =>
      obtain ⟨rfl, rfl⟩ := Codes.eq_of_plain hd (.pair hc) h.symm
      exact ⟨rfl, rfl⟩
    | pair hd =>
      obtain ⟨ha, h⟩ := List.cons.inj h
      obtain ⟨hb, rfl⟩ := List.cons.inj h
      rw [ha, hb] at hc
      exact ⟨eq_of_pair? hc hd, rfl⟩
    | hex => exact absurd h (not_hex_of_pair hc)
  | hex =>
    cases hd with
    | plain hd =>
      obtain ⟨rfl, rfl⟩ := Codes.eq_of_plain hd .hex h.symm
      exact ⟨rfl, rfl⟩
    | pair hd => exact absurd h.symm (not_hex_of_pair hd)
    | hex =>
      -- both codes end at the first `U`
      obtain ⟨-, hvalue, hmem⟩ := of_hexDigits c
      obtain ⟨-, hvalue', hmem'⟩ := of_hexDigits d
      have hdigits : hexDigits c ++ 'U' :: r = hexDigits d ++ 'U' :: r' := by
        simpa using (List.cons.inj h).2
      obtain ⟨heq, rfl⟩ := eq_of_append_cons_eq (fun h => (hmem _ h).2 rfl)
        (fun h => (hmem' _ h).2 rfl) hdigits
      rw [heq, hvalue'] at hvalue
      exact ⟨(Char.toNat_inj.1 hvalue).symm, rfl⟩

lemma encodeChar_append_inj (h : encodeChar c ++ r = encodeChar d ++ r') : c = d ∧ r = r' :=
  (codes_encodeChar c).append_inj (codes_encodeChar d) h

lemma encodeChar_ne_nil (c : Char) : encodeChar c ≠ [] := by
  have h := codes_encodeChar c
  intro hnil
  rw [hnil] at h
  cases h

lemma isAlphanum_of_mem_encodeChar (h : d ∈ encodeChar c) : d.isAlphanum := by
  have hc := codes_encodeChar c
  generalize encodeChar c = cs at h hc
  cases hc with
  | plain hc =>
    obtain rfl := List.mem_singleton.1 h
    exact isAlphanum_of_isPlain hc
  | pair hc =>
    obtain ⟨hfirst, hsecond⟩ := of_pair? hc
    rcases List.mem_pair.1 h with rfl | rfl
    · rcases hfirst with rfl | rfl
      · decide
      · decide
    · rw [Char.isAlphanum, hsecond]
      rfl
  | hex =>
    rcases List.mem_cons.1 h with rfl | h
    · decide
    · rcases List.mem_append.1 h with h | h
      · exact ((of_hexDigits c).2.2 d h).1
      · obtain rfl := List.mem_singleton.1 h
        decide

/-! ### The symbol of a name -/

lemma flatMap_encodeChar_inj (h : cs.flatMap encodeChar = ds.flatMap encodeChar) : cs = ds := by
  induction cs generalizing ds with
  | nil =>
    cases ds with
    | nil => rfl
    | cons d ds => exact absurd (List.append_eq_nil_iff.1 h.symm).1 (encodeChar_ne_nil d)
  | cons c cs ih =>
    cases ds with
    | nil => exact absurd (List.append_eq_nil_iff.1 h).1 (encodeChar_ne_nil c)
    | cons d ds =>
      obtain ⟨rfl, hrest⟩ := encodeChar_append_inj h
      rw [ih hrest]

lemma ofName_inj {a b : String} (h : ofName a = ofName b) : a = b := by
  have hlist := congrArg String.toList h
  rw [ofName, ofName, String.toList_ofList, String.toList_ofList] at hlist
  exact String.toList_inj.1 (flatMap_encodeChar_inj hlist)

end Symbol

/-! ### The symbols of a module -/

variable {H : Type}

lemma of_declare_eq_ok {name : String} {c : Node H} {f : FunctionDecl H}
    (h : declare name c = .ok f) : f.name = name ∧ f.symbol = Symbol.ofName name := by
  obtain ⟨⟨params, body⟩, -, h⟩ := Except.exists_of_bind_eq_ok h
  obtain ⟨ret, -, h⟩ := Except.exists_of_bind_eq_ok h
  obtain rfl := Except.ok.inj h
  exact ⟨rfl, rfl⟩

/-- The symbols of an interface are those of different names. -/
lemma symbols_of_ofConsts_eq_ok {moduleName : String} {consts : Scope H} {interface : Interface H}
    (h : Interface.ofConsts moduleName consts = .ok interface) :
    interface.functions.map FunctionDecl.symbol =
        (interface.functions.map FunctionDecl.name).map Symbol.ofName ∧
      (interface.functions.map FunctionDecl.name).Nodup := by
  have hdeclare := (forall₂_declare_of_ofConsts_eq_ok h).imp fun p f hf => of_declare_eq_ok hf
  have hnames : interface.functions.map FunctionDecl.name =
      (consts.entries.filter fun p => p.2.isLambda).map Prod.fst := by
    rw [← List.forall₂_eq_eq_eq, List.forall₂_map_left_iff, List.forall₂_map_right_iff]
    exact (hdeclare.imp fun p f hf => hf.1).flip
  constructor
  · rw [List.map_map]
    refine List.map_congr_left fun f hf => ?_
    obtain ⟨p, -, hname, hsymbol⟩ := exists_left_of_forall₂ hdeclare hf
    rw [hsymbol, Function.comp_apply, hname]
  · rw [hnames, List.Nodup, List.pairwise_map]
    refine (consts.sorted.filter fun p => p.2.isLambda).imp ?_
    intro p q hlt heq
    rw [heq] at hlt
    exact String.lt_irrefl q.1 hlt

/-- **Symbols are unambiguous.**  The codes of characters form a prefix code, the symbol of a name
is made of the codes of its characters and of ASCII letters and digits alone, and different names
have different symbols.  So have the functions of an interface. -/
theorem ofName_unambiguous :
    (∀ c d : Char, Symbol.encodeChar c <+: Symbol.encodeChar d → c = d) ∧
      (∀ a b : String, Symbol.ofName (a ++ b) = Symbol.ofName a ++ Symbol.ofName b) ∧
      (∀ (name : String), ∀ c ∈ (Symbol.ofName name).toList, c.isAlphanum) ∧
      (∀ a b : String, Symbol.ofName a = Symbol.ofName b → a = b) ∧
      ∀ (moduleName : String) (consts : Scope H) (interface : Interface H),
        Interface.ofConsts moduleName consts = .ok interface →
          (interface.functions.map FunctionDecl.symbol).Nodup := by
  refine ⟨?_, ?_, ?_, fun a b h => Symbol.ofName_inj h, ?_⟩
  · rintro c d ⟨r, h⟩
    have happend : Symbol.encodeChar c ++ r = Symbol.encodeChar d ++ [] := by
      rw [h, List.append_nil]
    exact (Symbol.encodeChar_append_inj happend).1
  · intro a b
    rw [Symbol.ofName, String.toList_append, List.flatMap_append, String.ofList_append]
    rfl
  · intro name c hc
    rw [Symbol.ofName, String.toList_ofList] at hc
    obtain ⟨d, -, hd⟩ := List.mem_flatMap.1 hc
    exact Symbol.isAlphanum_of_mem_encodeChar hd
  · intro moduleName consts interface h
    obtain ⟨hsymbols, hnodup⟩ := symbols_of_ofConsts_eq_ok h
    rw [hsymbols]
    exact hnodup.map fun a b hab => Symbol.ofName_inj hab

/-- Names whose symbols look like other names. -/
theorem ofName_unambiguous_of_lookalikes :
    ∃ interface : Interface Empty,
      Interface.ofConsts "m" (.ofList (["<", "zl", "zzl", "λ", "z3bbU"].map fun name =>
        (name, .list [.atom "lambda" none,
          .list [(Node.atom "x" none).withType (.atom "int" none)] none,
          (Node.atom "x" none).withType (.atom "int" none)] none))) = .ok interface ∧
      interface.functions.map FunctionDecl.symbol = ["zl", "zz3bbU", "zzl", "zzzzl", "z3bbU"] ∧
      (interface.functions.map FunctionDecl.symbol).Nodup := by
  obtain ⟨interface, h, hsymbols⟩ : ∃ interface : Interface Empty,
      Interface.ofConsts "m" (.ofList (["<", "zl", "zzl", "λ", "z3bbU"].map fun name =>
        (name, .list [.atom "lambda" none,
          .list [(Node.atom "x" none).withType (.atom "int" none)] none,
          (Node.atom "x" none).withType (.atom "int" none)] none))) = .ok interface ∧
      interface.functions.map FunctionDecl.symbol = ["zl", "zz3bbU", "zzl", "zzzzl", "z3bbU"] :=
    ⟨_, by cbv, by cbv⟩
  exact ⟨interface, h, hsymbols, ofName_unambiguous.2.2.2.2 "m" _ interface h⟩

end TypedLisp
