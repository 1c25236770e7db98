/-!
# Bindings

A finite map from names to values.  It serves as the environment of the evaluator, as the
substitution of the expander and as the table of a program's constants.  The entries are
kept in strictly increasing order of their names, so that a map has one representation and
going through it meets the names in the order of their code points, which is also the byte
order of their UTF-8 encodings.  What a name is bound to after an insertion and after a merge
is said by `get?_insert` and `get?_merge`.
-/

namespace TypedLisp

/-- A finite map from names to values. -/
structure Bindings (α : Type) where
  /-- The bound names with their values. -/
  entries : List (String × α)
  /-- The names increase. -/
  sorted : entries.Pairwise fun a b => a.1 < b.1

namespace Bindings

variable {α β : Type}

@[ext] theorem ext {a b : Bindings α} (h : a.entries = b.entries) : a = b := by
  cases a
  cases b
  cases h
  rfl

instance [DecidableEq α] : DecidableEq (Bindings α) := fun a b =>
  decidable_of_iff (a.entries = b.entries) ⟨ext, fun h => h ▸ rfl⟩

/-- The map that binds nothing. -/
def empty : Bindings α := ⟨[], .nil⟩

instance : EmptyCollection (Bindings α) := ⟨empty⟩

instance : Inhabited (Bindings α) := ⟨empty⟩

/-! ## Insertion -/

/-- The entries with `name` bound to `value`, in place of its old value if it has one. -/
def insertEntry (name : String) (value : α) : List (String × α) → List (String × α)
  | [] => [(name, value)]
  | (k, v) :: rest =>
    if name < k then (name, value) :: (k, v) :: rest
    else if name = k then (name, value) :: rest
    else (k, v) :: insertEntry name value rest

theorem mem_insertEntry {name : String} {value : α} {e : String × α} {es : List (String × α)}
    (h : e ∈ insertEntry name value es) : e = (name, value) ∨ e ∈ es := by
  induction es with
  | nil => simpa [insertEntry] using h
  | cons x rest ih =>
    obtain ⟨k, v⟩ := x
    simp only [insertEntry] at h
    split at h
    · simpa using h
    · split at h
      · rcases List.mem_cons.mp h with h | h
        · exact .inl h
        · exact .inr (List.mem_cons_of_mem _ h)
      · rcases List.mem_cons.mp h with h | h
        · exact .inr (h ▸ List.mem_cons_self)
        · exact (ih h).imp id (List.mem_cons_of_mem _)

theorem lt_of_not_lt_of_ne {a b : String} (h : ¬ a < b) (hne : a ≠ b) : b < a :=
  Decidable.byContradiction fun h' => hne (String.le_antisymm h' h)

/-- Insertion keeps the names increasing. -/
theorem pairwise_insertEntry (name : String) (value : α) {es : List (String × α)}
    (h : es.Pairwise fun a b => a.1 < b.1) :
    (insertEntry name value es).Pairwise fun a b => a.1 < b.1 := by
  induction es with
  | nil => simp [insertEntry]
  | cons x rest ih =>
    obtain ⟨k, v⟩ := x
    obtain ⟨hlt, hrest⟩ := List.pairwise_cons.mp h
    simp only [insertEntry]
    split
    · next hk =>
      refine List.pairwise_cons.mpr ⟨fun e he => ?_, h⟩
      rcases List.mem_cons.mp he with rfl | he
      · exact hk
      · exact String.lt_trans hk (hlt e he)
    · next hk =>
      split
      · next hne => exact List.pairwise_cons.mpr ⟨fun e he => hne ▸ hlt e he, hrest⟩
      · next hne =>
        refine List.pairwise_cons.mpr ⟨fun e he => ?_, ih hrest⟩
        rcases mem_insertEntry he with rfl | he
        · exact lt_of_not_lt_of_ne hk hne
        · exact hlt e he

/-- The map with `name` bound to `value`. -/
def insert (b : Bindings α) (name : String) (value : α) : Bindings α :=
  ⟨insertEntry name value b.entries, pairwise_insertEntry name value b.sorted⟩

/-! ## Views -/

/-- The value of a name, if it is bound. -/
def get? (b : Bindings α) (name : String) : Option α :=
  b.entries.lookup name

/-- Whether a name is bound. -/
def contains (b : Bindings α) (name : String) : Bool :=
  (b.get? name).isSome

/-- The bound names, in increasing order. -/
def names (b : Bindings α) : List String :=
  b.entries.map Prod.fst

/-- The number of bound names. -/
def size (b : Bindings α) : Nat :=
  b.entries.length

/-- Whether no name is bound. -/
def isEmpty (b : Bindings α) : Bool :=
  b.entries.isEmpty

/-! ## Whole maps -/

/-- The map of a list of pairs, of which a later one wins over an earlier one of its name. -/
def ofList (pairs : List (String × α)) : Bindings α :=
  pairs.foldl (fun b p => b.insert p.1 p.2) empty

/-- Both maps together, where the second one wins. -/
def merge (a b : Bindings α) : Bindings α :=
  b.entries.foldl (fun b p => b.insert p.1 p.2) a

/-- The map with each value replaced by the answer of `f`, or the first failure of `f` in the
order of the names. -/
def mapM {ε : Type} (f : α → Except ε β) (b : Bindings α) : Except ε (Bindings β) := do
  let pairs ← b.entries.mapM fun p => do
    let v ← f p.2
    return (p.1, v)
  return ofList pairs

/-! ## What a name is bound to -/

theorem lookup_cons_eq_ite (key k : String) (v : α) (es : List (String × α)) :
    ((k, v) :: es).lookup key = if key = k then some v else es.lookup key := by
  by_cases h : key = k
  · simp [h]
  · simp [List.lookup_cons, h, beq_eq_false_iff_ne.mpr h]

theorem lookup_insertEntry (name key : String) (value : α) (es : List (String × α)) :
    (insertEntry name value es).lookup key =
      if key = name then some value else es.lookup key := by
  induction es with
  | nil => simp [insertEntry, lookup_cons_eq_ite]
  | cons e rest ih =>
    obtain ⟨k, v⟩ := e
    simp only [insertEntry]
    split
    · simp only [lookup_cons_eq_ite]
    · split
      · next hk =>
        subst hk
        simp only [lookup_cons_eq_ite]
        split <;> rfl
      · next hk =>
        simp only [lookup_cons_eq_ite, ih]
        by_cases h : key = name
        · simp [h, hk]
        · simp [h]

@[simp] theorem get?_empty (key : String) : (empty : Bindings α).get? key = none := rfl

theorem get?_insert (b : Bindings α) (name key : String) (value : α) :
    (b.insert name value).get? key = if key = name then some value else b.get? key :=
  lookup_insertEntry name key value b.entries

theorem lookup_eq_none_of_forall_lt {key : String} {es : List (String × α)}
    (h : ∀ e ∈ es, key < e.1) : es.lookup key = none := by
  rw [List.lookup_eq_none_iff]
  intro e he
  have hne : key ≠ e.1 := fun h' => String.lt_irrefl key (h' ▸ h e he)
  simpa using hne

/-- In a map that is merged into another one, its own bindings come first. -/
theorem get?_merge (a b : Bindings α) (key : String) :
    (a.merge b).get? key = (b.get? key).or (a.get? key) := by
  obtain ⟨es, hs⟩ := b
  simp only [merge, get?]
  induction es generalizing a with
  | nil => rfl
  | cons e rest ih =>
    obtain ⟨hlt, hrest⟩ := List.pairwise_cons.mp hs
    have hi : (a.insert e.1 e.2).entries.lookup key =
        if key = e.1 then some e.2 else a.entries.lookup key := get?_insert a e.1 key e.2
    rw [List.foldl_cons, ih (a.insert e.1 e.2) hrest, hi, lookup_cons_eq_ite]
    by_cases h : key = e.1
    · subst h
      simp [lookup_eq_none_of_forall_lt hlt]
    · simp [h]

end Bindings
end TypedLisp
