/-!
# Rosters

Entries by name in the order in which the names first came up. Putting a name again replaces its
entry where it stands.
-/

namespace Ownership

/-- Entries by name, in order. -/
abbrev Roster (α : Type) := List (String × α)

namespace Roster

variable {α : Type}

/-- The entry of a name. -/
def get? (r : Roster α) (k : String) : Option α := List.lookup k r

/-- Replace the entry of `k` where it stands, or add it at the end. -/
def put (k : String) (v : α) : Roster α → Roster α
  | [] => [(k, v)]
  | (j, w) :: r => if j = k then (j, v) :: r else (j, w) :: put k v r

/-- The roster of a list of pairs, later pairs replacing earlier ones. -/
def ofPairs (ps : List (String × α)) : Roster α :=
  ps.foldl (fun r (k, v) => r.put k v) []

def names (r : Roster α) : List String := r.map Prod.fst

theorem get?_nil (j : String) : get? ([] : Roster α) j = none := rfl

theorem get?_cons (r : Roster α) (k j : String) (v : α) :
    get? ((k, v) :: r) j = if j = k then some v else r.get? j := by
  by_cases h : j = k
  · simp [get?, h]
  · have hb : (j == k) = false := by simpa using h
    simp [get?, List.lookup_cons, h, hb]

theorem get?_put (r : Roster α) (k j : String) (v : α) :
    (r.put k v).get? j = if j = k then some v else r.get? j := by
  induction r with
  | nil => simp [put, get?_cons]
  | cons e r ih =>
    obtain ⟨i, w⟩ := e
    by_cases hk : i = k
    · subst hk
      simp only [put, if_true, get?_cons]
      split <;> rfl
    · simp only [put, if_neg hk, get?_cons, ih]
      by_cases h : j = i
      · subst h
        simp [hk]
      · simp [h]

end Roster

end Ownership
