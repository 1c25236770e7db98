import Mathlib.Data.List.Induction
import Mathlib.Data.Set.Basic
import Mathlib.Tactic.Lemma
import TypedLisp.FreshName

/-!
# When fresh names differ

A fresh name is a stem with a numeral right behind it, and no two names of one supply have the same
numeral.  Two names can be equal nevertheless, as nothing tells where the stem ends: the digits that
one name has more than the other may be the end of its stem.  This is the only way, so the names
over some stems differ if and only if no stem is another stem with a positive numeral behind it.
-/

namespace TypedLisp
namespace FreshNames

/-! ### Numerals -/

section Numerals

variable {n k : Nat} {ds es : List Char}

/-- A positive numeral with another one behind it is the numeral of a larger number. -/
lemma exists_toDigits_eq_append (hn : 0 < n) (m : Nat) :
    ∃ k, m < k ∧ Nat.toDigits 10 k = Nat.toDigits 10 n ++ Nat.toDigits 10 m := by
  induction m using Nat.strong_induction_on with
  | _ m ih =>
    by_cases hm : m < 10
    · refine ⟨10 * n + m, by omega, ?_⟩
      rw [Nat.toDigits_append_toDigits (by decide) hn hm]
    · -- the last digit goes behind what the others give
      obtain ⟨k, hk, hdigits⟩ := ih (m / 10) (by omega)
      refine ⟨10 * k + m % 10, by omega, ?_⟩
      rw [← Nat.toDigits_append_toDigits (by decide) (Nat.zero_lt_of_lt hk)
        (Nat.mod_lt m (by decide)), hdigits, Nat.toDigits_of_lt_base (Nat.mod_lt m (by decide)),
        Nat.toDigits_of_base_le (n := m) (by decide) (Nat.le_of_not_lt hm), List.append_assoc]

/-- What is left of a numeral when digits are taken off its end is a positive numeral. -/
lemma exists_eq_toDigits (h : Nat.toDigits 10 k = ds ++ es) (hds : ds ≠ []) (hes : es ≠ []) :
    ∃ n, 0 < n ∧ ds = Nat.toDigits 10 n := by
  induction es using List.reverseRecOn generalizing k with
  | nil => exact absurd rfl hes
  | append_singleton es e ih =>
    rw [← List.append_assoc] at h
    by_cases hk : k < 10
    · -- a single digit cannot be cut
      rw [Nat.toDigits_of_lt_base hk] at h
      have hlen := congrArg List.length h
      have hpos := List.length_pos_iff.2 hds
      simp only [List.length_append, List.length_cons, List.length_nil] at hlen
      omega
    · rw [Nat.toDigits_of_base_le (by decide) (Nat.le_of_not_lt hk)] at h
      have hinit : Nat.toDigits 10 (k / 10) = ds ++ es := (List.append_inj' h rfl).1
      by_cases hnil : es = []
      · refine ⟨k / 10, by omega, ?_⟩
        rw [hinit, hnil, List.append_nil]
      · exact ih hinit hnil

lemma toDigits_inj {i j : Nat} (h : Nat.toDigits 10 i = Nat.toDigits 10 j) : i = j := by
  rw [← Nat.ofDigitChars_ten_toDigits (n := i), h, Nat.ofDigitChars_ten_toDigits]

end Numerals

/-! ### Names -/

variable {s : FreshNames} {a b stem name : String} {used : List String} {stems : Set String}

lemma toList_append_toString (stem : String) (n : Nat) :
    (stem ++ toString n).toList = stem.toList ++ Nat.toDigits 10 n := by
  rw [String.toList_append, Nat.toString_eq_ofList_toDigits, String.toList_ofList]

/-- If what the longer one of two stems has more is the start of a numeral, it is a positive numeral
itself. -/
lemma exists_eq_append_toString {i j : Nat} {ds : List Char} (ha : a.toList = b.toList ++ ds)
    (hj : Nat.toDigits 10 j = ds ++ Nat.toDigits 10 i) (hds : ds ≠ []) :
    ∃ n, 0 < n ∧ a = b ++ toString n := by
  obtain ⟨n, hn, rfl⟩ := exists_eq_toDigits hj hds Nat.toDigits_ne_nil
  exact ⟨n, hn, String.toList_inj.1 (by rw [ha, toList_append_toString])⟩

/-- Names with different numbers are equal only if one stem is the other with a positive numeral
behind it. -/
lemma of_append_toString_eq {i j : Nat} (h : a ++ toString i = b ++ toString j) :
    i = j ∨ (∃ n, 0 < n ∧ a = b ++ toString n) ∨ ∃ n, 0 < n ∧ b = a ++ toString n := by
  have hlist := congrArg String.toList h
  rw [toList_append_toString, toList_append_toString] at hlist
  rcases List.append_eq_append_iff.1 hlist with ⟨ds, hb, hi⟩ | ⟨ds, ha, hj⟩
  · by_cases hds : ds = []
    · rw [hds, List.nil_append] at hi
      exact .inl (toDigits_inj hi)
    · exact .inr (.inr (exists_eq_append_toString hb hi hds))
  · by_cases hds : ds = []
    · rw [hds, List.nil_append] at hj
      exact .inl (toDigits_inj hj.symm)
    · exact .inr (.inl (exists_eq_append_toString ha hj hds))

/-! ### A supply -/

lemma freshAll_cons : (s.freshAll (stem :: used)).1 =
    (stem ++ toString s.next) :: (freshAll ⟨s.next + 1⟩ used).1 := rfl

/-- A fresh name is one of the stems with a number that the supply had left. -/
lemma exists_of_mem_freshAll (h : name ∈ (s.freshAll used).1) :
    ∃ stem ∈ used, ∃ n, s.next ≤ n ∧ name = stem ++ toString n := by
  induction used generalizing s with
  | nil => cases h
  | cons stem used ih =>
    rw [freshAll_cons] at h
    rcases List.mem_cons.1 h with rfl | h
    · exact ⟨stem, List.mem_cons_self, s.next, Nat.le_refl _, rfl⟩
    · obtain ⟨other, hother, n, hn, rfl⟩ := ih h
      exact ⟨other, List.mem_cons_of_mem stem hother, n, Nat.le_of_succ_le hn, rfl⟩

/-- A stem that is asked for often enough gets all the numbers that are next. -/
lemma mem_freshAll_replicate {count n : Nat} (hn : s.next ≤ n) (hlt : n < s.next + count) :
    stem ++ toString n ∈ (s.freshAll (List.replicate count stem)).1 := by
  induction count generalizing s with
  | zero => omega
  | succ count ih =>
    rw [List.replicate_succ, freshAll_cons]
    by_cases hnext : n = s.next
    · rw [hnext]
      exact List.mem_cons_self
    · refine List.mem_cons_of_mem _ (ih (s := ⟨s.next + 1⟩) ?_ ?_)
      · exact Nat.succ_le_of_lt (Nat.lt_of_le_of_ne hn (Ne.symm hnext))
      · show n < s.next + 1 + count
        omega

lemma nodup_freshAll (h : ∀ stem ∈ stems, ∀ n, 0 < n → stem ++ toString n ∉ stems)
    (hused : ∀ stem ∈ used, stem ∈ stems) : (s.freshAll used).1.Nodup := by
  induction used generalizing s with
  | nil => exact List.nodup_nil
  | cons stem used ih =>
    obtain ⟨hstem, hrest⟩ := List.forall_mem_cons.1 hused
    rw [freshAll_cons, List.nodup_cons]
    refine ⟨?_, ih hrest⟩
    intro hmem
    obtain ⟨other, hother, k, hk, heq⟩ := exists_of_mem_freshAll hmem
    rcases of_append_toString_eq heq with rfl | ⟨n, hn, rfl⟩ | ⟨n, hn, rfl⟩
    · exact absurd hk (Nat.not_succ_le_self _)
    · exact h other (hrest other hother) n hn hstem
    · exact h stem hstem n hn (hrest _ hother)

/-- **When fresh names differ.**  Whatever number a supply has come to, all fresh names over some
stems, in any order and however often each of them is asked for, are pairwise different if and only
if no stem is another stem with a positive numeral behind it. -/
theorem nodup_freshAll_iff (s : FreshNames) (stems : Set String) :
    (∀ used : List String, (∀ stem ∈ used, stem ∈ stems) → (s.freshAll used).1.Nodup) ↔
      ∀ stem ∈ stems, ∀ n, 0 < n → stem ++ toString n ∉ stems := by
  refine ⟨?_, fun h used hused => nodup_freshAll h hused⟩
  intro h stem hstem n hn hlong
  -- the longer stem takes the next number, which is the end of a later number of the shorter one
  obtain ⟨k, hk, hdigits⟩ := exists_toDigits_eq_append hn s.next
  have hname : stem ++ toString n ++ toString s.next = stem ++ toString k := by
    apply String.toList_inj.1
    rw [toList_append_toString, toList_append_toString, toList_append_toString, hdigits,
      List.append_assoc]
  have hnodup := h ((stem ++ toString n) :: List.replicate k stem) (by
    rw [List.forall_mem_cons]
    exact ⟨hlong, fun other hmem => List.eq_of_mem_replicate hmem ▸ hstem⟩)
  rw [freshAll_cons, hname] at hnodup
  refine (List.nodup_cons.1 hnodup).1 (mem_freshAll_replicate ?_ ?_)
  · exact Nat.succ_le_of_lt hk
  · show k < s.next + 1 + k
    omega

/-- The stem `a1` with the number `0` is the stem `a` with the number `10`. -/
theorem not_nodup_freshAll_of_digit :
    (start.freshAll ["a1", "b", "b", "b", "b", "b", "b", "b", "b", "b", "a"]).1 =
        ["a10", "b1", "b2", "b3", "b4", "b5", "b6", "b7", "b8", "b9", "a10"] ∧
      ¬ (start.freshAll ["a1", "b", "b", "b", "b", "b", "b", "b", "b", "b", "a"]).1.Nodup := by
  have hnames : (start.freshAll ["a1", "b", "b", "b", "b", "b", "b", "b", "b", "b", "a"]).1 =
      ["a10", "b1", "b2", "b3", "b4", "b5", "b6", "b7", "b8", "b9", "a10"] := by cbv
  refine ⟨hnames, ?_⟩
  rw [hnames]
  simp

end FreshNames
end TypedLisp
