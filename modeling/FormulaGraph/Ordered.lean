/-!
Maps from names to values that keep the order in which the names first came.
-/

namespace FormulaGraph

/-- The entries of a map in order, no two of them under one name. -/
structure Ordered (α : Type) where
  entries : List (String × α)
  nodup : (entries.map Prod.fst).Nodup
deriving DecidableEq

namespace Ordered

variable {α : Type}

def empty : Ordered α := ⟨[], List.nodup_nil⟩

def get? (m : Ordered α) (key : String) : Option α := m.entries.lookup key

/-- Entries with one more. A known name keeps its place and takes the new
value. -/
def put (key : String) (value : α) : List (String × α) → List (String × α)
  | [] => [(key, value)]
  | (k, v) :: rest => if k = key then (k, value) :: rest else (k, v) :: put key value rest

theorem mem_keys_put {key name : String} {value : α} {entries : List (String × α)} :
    name ∈ (put key value entries).map Prod.fst ↔ name = key ∨ name ∈ entries.map Prod.fst := by
  induction entries with
  | nil => simp [put]
  | cons entry rest ih =>
    obtain ⟨k, v⟩ := entry
    simp only [put]
    split
    · next h => subst h; simp
    · simp only [List.map_cons, List.mem_cons, ih]
      exact or_left_comm

theorem nodup_keys_put (key : String) (value : α) {entries : List (String × α)}
    (h : (entries.map Prod.fst).Nodup) : ((put key value entries).map Prod.fst).Nodup := by
  induction entries with
  | nil => simp [put]
  | cons entry rest ih =>
    obtain ⟨k, v⟩ := entry
    simp only [List.map_cons, List.nodup_cons] at h
    simp only [put]
    split
    · simpa using h
    · next hk =>
      simp only [List.map_cons, List.nodup_cons]
      exact ⟨fun hm => (mem_keys_put.mp hm).elim hk h.1, ih h.2⟩

def insert (m : Ordered α) (key : String) (value : α) : Ordered α :=
  ⟨put key value m.entries, nodup_keys_put key value m.nodup⟩

def insertAll (m : Ordered α) (entries : List (String × α)) : Ordered α :=
  entries.foldl (fun m entry => m.insert entry.1 entry.2) m

end Ordered

end FormulaGraph
