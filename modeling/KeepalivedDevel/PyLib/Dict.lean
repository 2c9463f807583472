import Mathlib.Data.List.Basic
import Mathlib.Data.List.Nodup
import Mathlib.Tactic.Common

/-!
# Dictionaries

A dictionary of Python: its items in the order in which their keys came, no key
twice.
-/

namespace PyLib

@[ext]
structure Dict (κ α : Type) where
  items : List (κ × α)
  nodup : (items.map Prod.fst).Nodup

namespace Dict

variable {κ α : Type} [DecidableEq κ]

def empty : Dict κ α := ⟨[], List.nodup_nil⟩

def getItem (k : κ) : List (κ × α) → Option α
  | [] => none
  | (j, v) :: items => if j = k then some v else getItem k items

def setItem (k : κ) (v : α) : List (κ × α) → List (κ × α)
  | [] => [(k, v)]
  | (j, w) :: items => if j = k then (j, v) :: items else (j, w) :: setItem k v items

theorem keys_setItem (k : κ) (v : α) (items : List (κ × α)) :
    (setItem k v items).map Prod.fst =
      if k ∈ items.map Prod.fst then items.map Prod.fst else items.map Prod.fst ++ [k] := by
  induction items with
  | nil => rfl
  | cons item items ih =>
    rw [setItem]
    split
    · rename_i h
      simp [h]
    · rename_i h
      have hk : k ≠ item.1 := Ne.symm h
      simp only [List.map_cons, ih, List.mem_cons, hk, false_or]
      split <;> rfl

theorem nodup_setItem {k : κ} {v : α} {items : List (κ × α)} (h : (items.map Prod.fst).Nodup) :
    ((setItem k v items).map Prod.fst).Nodup := by
  rw [keys_setItem]
  split
  · exact h
  · rename_i hk
    exact h.append (List.nodup_singleton k) (by simpa using hk)

def get (d : Dict κ α) (k : κ) : Option α := getItem k d.items

def set (d : Dict κ α) (k : κ) (v : α) : Dict κ α := ⟨setItem k v d.items, nodup_setItem d.nodup⟩

@[simp]
theorem get_empty (k : κ) : (empty : Dict κ α).get k = none := rfl

theorem get_set (d : Dict κ α) (k j : κ) (v : α) :
    (d.set k v).get j = if k = j then some v else d.get j := by
  have hitems : ∀ items : List (κ × α), getItem j (setItem k v items) =
      if k = j then some v else getItem j items := by
    intro items
    induction items with
    | nil => rfl
    | cons item items ih =>
      rw [setItem, getItem]
      by_cases hk : item.1 = k
      · by_cases hj : k = j <;> simp [hk, hj, getItem]
      · by_cases hj : item.1 = j
        · have hkj : k ≠ j := fun h => hk (hj.trans h.symm)
          simp [hj, hkj, Ne.symm hkj, getItem]
        · simp [hk, hj, getItem, ih]
  exact hitems d.items

/-! ### A dictionary from its items -/

def ofItems (items : List (κ × α)) : Dict κ α := items.foldl (fun d i => d.set i.1 i.2) empty

theorem setItem_of_not_mem {k : κ} {v : α} {items : List (κ × α)} (h : k ∉ items.map Prod.fst) :
    setItem k v items = items ++ [(k, v)] := by
  induction items with
  | nil => rfl
  | cons item items ih =>
    simp only [List.map_cons, List.mem_cons, not_or] at h
    rw [setItem, if_neg (Ne.symm h.1), ih h.2, List.cons_append]

theorem ofItems_items (d : Dict κ α) : ofItems d.items = d := by
  have hfold : ∀ (items : List (κ × α)) (e : Dict κ α),
      ((e.items ++ items).map Prod.fst).Nodup →
        (items.foldl (fun d i => d.set i.1 i.2) e).items = e.items ++ items := by
    intro items
    induction items with
    | nil => simp
    | cons item items ih =>
      intro e h
      have hset : (e.set item.1 item.2).items = e.items ++ [item] := by
        refine setItem_of_not_mem fun hmem => ?_
        rw [List.map_append, List.nodup_append] at h
        exact h.2.2 _ hmem _ (by simp) rfl
      rw [List.foldl_cons, ih _ (by rw [hset]; simpa using h), hset]
      simp
  exact Dict.ext (hfold d.items empty d.nodup)

end Dict

end PyLib
