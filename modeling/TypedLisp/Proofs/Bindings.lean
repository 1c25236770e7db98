import TypedLisp.Bindings
import TypedLisp.Proofs.Except

/-!
# Entries of maps

A map is the list of its entries, in the order of their names.  This file has what follows from that
order for the map as a whole: which map some entries make up, which names it binds, what becomes of
the entries when each value is replaced, and when something holds of all of them.
-/

namespace TypedLisp
namespace Bindings

variable {α β : Type}

/-! ### Maps and their entries -/

lemma insertEntry_of_lt {name : String} {value : α} {es : List (String × α)}
    (h : ∀ p ∈ es, p.1 < name) : insertEntry name value es = es ++ [(name, value)] := by
  induction es with
  | nil => rfl
  | cons p es ih =>
    obtain ⟨hp, hes⟩ := List.forall_mem_cons.1 h
    have hne : name ≠ p.1 := fun heq => String.lt_irrefl name (heq ▸ hp)
    rw [insertEntry, if_neg (String.lt_asymm hp), if_neg hne, ih hes]
    rfl

lemma entries_foldl_insert (es : List (String × α)) (b : Bindings α)
    (h : (b.entries ++ es).Pairwise fun p q => p.1 < q.1) :
    (es.foldl (fun b p => b.insert p.1 p.2) b).entries = b.entries ++ es := by
  induction es generalizing b with
  | nil => simp
  | cons p es ih =>
    have hlast : (b.insert p.1 p.2).entries = b.entries ++ [p] :=
      insertEntry_of_lt fun q hq => (List.pairwise_append.1 h).2.2 q hq p (by simp)
    rw [List.foldl_cons, ih (b.insert p.1 p.2) (by simpa [hlast] using h), hlast,
      List.append_assoc]
    rfl

/-- A map is the one that its entries make up. -/
lemma ofList_entries (b : Bindings α) : ofList b.entries = b :=
  ext (entries_foldl_insert b.entries empty b.sorted)

lemma get?_eq_some_iff {b : Bindings α} {name : String} {value : α} :
    b.get? name = some value ↔ (name, value) ∈ b.entries := by
  obtain ⟨es, hs⟩ := b
  rw [get?]
  induction es with
  | nil => simp
  | cons e es ih =>
    obtain ⟨k, v⟩ := e
    obtain ⟨hlt, hes⟩ := List.pairwise_cons.1 hs
    rw [lookup_cons_eq_ite, List.mem_cons]
    split
    · next h =>
      subst h
      constructor
      · rintro ⟨⟩
        exact .inl rfl
      · rintro (h | h)
        · rw [(Prod.mk.inj h).2]
        · exact absurd (hlt _ h) (String.lt_irrefl _)
    · next h =>
      rw [ih hes]
      simp [h]

/-- The entries that a map is made of are what the values of another one are mapped to. -/
lemma forall₂_entries_of_mapM_eq_ok {ε : Type} {f : α → Except ε β} {b : Bindings α}
    {c : Bindings β} (h : b.mapM f = .ok c) :
    List.Forall₂ (fun p q => p.1 = q.1 ∧ f p.2 = .ok q.2) b.entries c.entries := by
  obtain ⟨pairs, hpairs, h⟩ := Except.exists_of_bind_eq_ok h
  obtain rfl := Except.ok.inj h
  have hforall : List.Forall₂ (fun p q => p.1 = q.1 ∧ f p.2 = .ok q.2) b.entries pairs := by
    refine (Except.mapM_eq_ok_iff.1 hpairs).imp fun p q h => ?_
    obtain ⟨v, hv, h⟩ := Except.exists_of_bind_eq_ok h
    obtain rfl := Except.ok.inj h
    exact ⟨rfl, hv⟩
  have hnames : b.entries.map Prod.fst = pairs.map Prod.fst := by
    rw [← List.forall₂_eq_eq_eq, List.forall₂_map_left_iff, List.forall₂_map_right_iff]
    exact hforall.imp fun p q h => h.1
  have hsorted : pairs.Pairwise fun p q => p.1 < q.1 := by
    rw [← List.pairwise_map, ← hnames, List.pairwise_map]
    exact b.sorted
  rwa [ofList, entries_foldl_insert pairs empty hsorted]

/-! ### Names that are bound -/

lemma contains_empty (key : String) : (empty : Bindings α).contains key = false := rfl

lemma contains_of_get?_eq_some {b : Bindings α} {key : String} {value : α}
    (h : b.get? key = some value) : b.contains key := by
  rw [contains, h]
  rfl

lemma contains_insert {b : Bindings α} {name key : String} {value : α} :
    (b.insert name value).contains key ↔ key = name ∨ b.contains key := by
  rw [contains, contains, get?_insert]
  split
  · next heq => simp [heq]
  · next hne => simp [hne]

lemma contains_merge {a b : Bindings α} {key : String} :
    (a.merge b).contains key ↔ a.contains key ∨ b.contains key := by
  rw [contains, contains, contains, get?_merge]
  simp [or_comm]

/-! ### All entries -/

/-- Something holds of all names that are bound, with their values. -/
def Forall (P : String → α → Prop) (b : Bindings α) : Prop :=
  ∀ name value, b.get? name = some value → P name value

section

variable {P Q : String → α → Prop} {a b : Bindings α}

lemma forall_empty : Forall P empty := nofun

lemma Forall.insert (h : b.Forall P) {name : String} {value : α} (hvalue : P name value) :
    (b.insert name value).Forall P := by
  intro key v hv
  rw [get?_insert] at hv
  split at hv
  · next heq =>
    obtain rfl := Option.some.inj hv
    exact heq ▸ hvalue
  · exact h key v hv

lemma Forall.merge (ha : a.Forall P) (hb : b.Forall P) : (a.merge b).Forall P := by
  intro key v hv
  rw [get?_merge, Option.or_eq_some_iff] at hv
  rcases hv with hv | ⟨-, hv⟩
  · exact hb key v hv
  · exact ha key v hv

lemma forall_ofList {pairs : List (String × α)} (h : ∀ p ∈ pairs, P p.1 p.2) :
    (ofList pairs).Forall P := by
  have hfold : ∀ b : Bindings α, b.Forall P →
      (pairs.foldl (fun b p => b.insert p.1 p.2) b).Forall P := by
    induction pairs with
    | nil => exact fun b hb => hb
    | cons p pairs ih =>
      obtain ⟨hp, hpairs⟩ := List.forall_mem_cons.1 h
      exact fun b hb => ih hpairs _ (hb.insert hp)
  exact hfold empty forall_empty

end

end Bindings
end TypedLisp
