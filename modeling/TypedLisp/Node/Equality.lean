import TypedLisp.Node.Basic

/-!
# Equality of nodes

Two nodes are equal when their kinds, spans and types are, all the way down.  The test below
decides this for nodes over host functions that can themselves be compared.
-/

namespace TypedLisp

variable {H : Type} [DecidableEq H]

mutual

/-- Decides whether two kinds are equal. -/
def Kind.decEq : (a b : Kind H) → Decidable (a = b)
  | .quoted a, .quoted b => match Node.decEq a b with
    | isTrue h => isTrue (h ▸ rfl)
    | isFalse h => isFalse (by intro e; cases e; exact h rfl)
  | .list as, .list bs => match Node.decEqAll as bs with
    | isTrue h => isTrue (h ▸ rfl)
    | isFalse h => isFalse (by intro e; cases e; exact h rfl)
  | .atom a, .atom b => decidable_of_iff (a = b) (by simp)
  | .str a, .str b => decidable_of_iff (a = b) (by simp)
  | .null, .null => isTrue rfl
  | .keyword a, .keyword b => decidable_of_iff (a = b) (by simp)
  | .value a, .value b => decidable_of_iff (a = b) (by simp)
  | .procedure a, .procedure b => decidable_of_iff (a = b) (by simp)
  | .quoted _, .list _ | .quoted _, .atom _ | .quoted _, .str _ | .quoted _, .null
  | .quoted _, .keyword _ | .quoted _, .value _ | .quoted _, .procedure _
  | .list _, .quoted _ | .list _, .atom _ | .list _, .str _ | .list _, .null
  | .list _, .keyword _ | .list _, .value _ | .list _, .procedure _
  | .atom _, .quoted _ | .atom _, .list _ | .atom _, .str _ | .atom _, .null
  | .atom _, .keyword _ | .atom _, .value _ | .atom _, .procedure _
  | .str _, .quoted _ | .str _, .list _ | .str _, .atom _ | .str _, .null
  | .str _, .keyword _ | .str _, .value _ | .str _, .procedure _
  | .null, .quoted _ | .null, .list _ | .null, .atom _ | .null, .str _
  | .null, .keyword _ | .null, .value _ | .null, .procedure _
  | .keyword _, .quoted _ | .keyword _, .list _ | .keyword _, .atom _ | .keyword _, .str _
  | .keyword _, .null | .keyword _, .value _ | .keyword _, .procedure _
  | .value _, .quoted _ | .value _, .list _ | .value _, .atom _ | .value _, .str _
  | .value _, .null | .value _, .keyword _ | .value _, .procedure _
  | .procedure _, .quoted _ | .procedure _, .list _ | .procedure _, .atom _
  | .procedure _, .str _ | .procedure _, .null | .procedure _, .keyword _
  | .procedure _, .value _ => isFalse (by simp)

/-- Decides whether two nodes are equal. -/
def Node.decEq : (a b : Node H) → Decidable (a = b)
  | ⟨k, s, t⟩, ⟨k', s', t'⟩ =>
    match Kind.decEq k k', decEq s s', Node.decEqOption t t' with
    | isTrue h, isTrue h', isTrue h'' => isTrue (by subst h h' h''; rfl)
    | isFalse h, _, _ => isFalse (by intro e; cases e; exact h rfl)
    | _, isFalse h, _ => isFalse (by intro e; cases e; exact h rfl)
    | _, _, isFalse h => isFalse (by intro e; cases e; exact h rfl)

/-- Decides whether two optional nodes are equal. -/
def Node.decEqOption : (a b : Option (Node H)) → Decidable (a = b)
  | none, none => isTrue rfl
  | some a, some b => match Node.decEq a b with
    | isTrue h => isTrue (h ▸ rfl)
    | isFalse h => isFalse (by intro e; cases e; exact h rfl)
  | none, some _ => isFalse (by simp)
  | some _, none => isFalse (by simp)

/-- Decides whether two lists of nodes are equal. -/
def Node.decEqAll : (a b : List (Node H)) → Decidable (a = b)
  | [], [] => isTrue rfl
  | a :: as, b :: bs => match Node.decEq a b, Node.decEqAll as bs with
    | isTrue h, isTrue h' => isTrue (h ▸ h' ▸ rfl)
    | isFalse h, _ => isFalse (by intro e; cases e; exact h rfl)
    | _, isFalse h => isFalse (by intro e; cases e; exact h rfl)
  | [], _ :: _ => isFalse (by simp)
  | _ :: _, [] => isFalse (by simp)

end

instance : DecidableEq (Node H) := Node.decEq

end TypedLisp
