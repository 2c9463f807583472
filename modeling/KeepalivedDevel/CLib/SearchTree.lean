import Mathlib.Tactic.Common
import Mathlib.Data.List.Basic
import Mathlib.Data.List.Nodup
import Mathlib.Order.Compare
import Mathlib.Order.Lattice

/-!
# Binary search trees under a doubtful comparison

Searching and linking descend by a comparison function that may disagree with
the order of the keys. They do what they should exactly where the comparison is
right on the path that the order itself would take.
-/

namespace CLib

inductive SearchTree (α : Type) where
  | leaf
  | node (left : SearchTree α) (val : α) (right : SearchTree α)
  deriving Repr, DecidableEq

namespace SearchTree

section
variable {α : Type}

def inorder : SearchTree α → List α
  | leaf => []
  | node l x r => l.inorder ++ x :: r.inorder

def search (cmp : α → α → Ordering) (v : α) : SearchTree α → Option α
  | leaf => none
  | node l x r =>
    match cmp v x with
    | .lt => search cmp v l
    | .gt => search cmp v r
    | .eq => some x

/- A new leaf node at the place where the search ends; `none` if it finds `v`. -/
def link (cmp : α → α → Ordering) (v : α) : SearchTree α → Option (SearchTree α)
  | leaf => some (node leaf v leaf)
  | node l x r =>
    match cmp v x with
    | .lt => (link cmp v l).map fun l => node l x r
    | .gt => (link cmp v r).map fun r => node l x r
    | .eq => none

theorem search_isSome_iff_link (cmp : α → α → Ordering) (v : α) (t : SearchTree α) :
    (search cmp v t).isSome ↔ link cmp v t = none := by
  induction t with
  | leaf => simp [search, link]
  | node l x r ihl ihr =>
    unfold search link
    cases cmp v x with
    | lt => simpa using ihl
    | gt => simpa using ihr
    | eq => simp

theorem link_split {cmp : α → α → Ordering} {v : α} {t t' : SearchTree α} (h : link cmp v t = some t') :
    ∃ before after, t.inorder = before ++ after ∧ t'.inorder = before ++ v :: after := by
  induction t generalizing t' with
  | leaf =>
    cases h
    exact ⟨[], [], rfl, rfl⟩
  | node l x r ihl ihr =>
    unfold link at h
    cases hc : cmp v x with
    | lt =>
      simp only [hc, Option.map_eq_some_iff] at h
      obtain ⟨l', hl, rfl⟩ := h
      obtain ⟨before, after, hb, ha⟩ := ihl hl
      exact ⟨before, after ++ x :: r.inorder, by simp [inorder, hb], by simp [inorder, ha]⟩
    | gt =>
      simp only [hc, Option.map_eq_some_iff] at h
      obtain ⟨r', hr, rfl⟩ := h
      obtain ⟨before, after, hb, ha⟩ := ihr hr
      exact ⟨l.inorder ++ x :: before, after, by simp [inorder, hb], by simp [inorder, ha]⟩
    | eq => simp [hc] at h

theorem mem_of_link_eq_none {cmp : α → α → Ordering} (hcmp : ∀ v x, cmp v x = .eq ↔ v = x) {v : α}
    {t : SearchTree α} (h : link cmp v t = none) : v ∈ t.inorder := by
  induction t with
  | leaf => cases h
  | node l x r ihl ihr =>
    unfold link at h
    unfold inorder
    cases hc : cmp v x with
    | lt =>
      simp only [hc, Option.map_eq_none_iff] at h
      exact List.mem_append_left _ (ihl h)
    | gt =>
      simp only [hc, Option.map_eq_none_iff] at h
      exact List.mem_append_right _ (List.mem_cons_of_mem _ (ihr h))
    | eq =>
      rw [(hcmp v x).mp hc]
      exact List.mem_append_right _ (List.mem_cons_self ..)

theorem getD_link_lt {cmp : α → α → Ordering} {v x : α} (h : cmp v x = .lt) (l r : SearchTree α) :
    (link cmp v (node l x r)).getD (node l x r) = node ((link cmp v l).getD l) x r := by
  simp only [link, h]
  exact Option.getD_map (fun l => node l x r) l (link cmp v l)

theorem getD_link_gt {cmp : α → α → Ordering} {v x : α} (h : cmp v x = .gt) (l r : SearchTree α) :
    (link cmp v (node l x r)).getD (node l x r) = node l x ((link cmp v r).getD r) := by
  simp only [link, h]
  exact Option.getD_map (fun r => node l x r) r (link cmp v r)

theorem getD_link_eq {cmp : α → α → Ordering} {v x : α} (h : cmp v x = .eq) (l r : SearchTree α) :
    (link cmp v (node l x r)).getD (node l x r) = node l x r := by
  simp only [link, h, Option.getD_none]

theorem mem_getD_link {cmp : α → α → Ordering} (hcmp : ∀ v x, cmp v x = .eq ↔ v = x) (v y : α)
    (t : SearchTree α) : y ∈ ((link cmp v t).getD t).inorder ↔ y = v ∨ y ∈ t.inorder := by
  cases h : link cmp v t with
  | none =>
    have hv := mem_of_link_eq_none hcmp h
    constructor
    · exact .inr
    · rintro (rfl | hy)
      · exact hv
      · exact hy
  | some t' =>
    obtain ⟨before, after, hb, ha⟩ := link_split h
    rw [Option.getD_some, hb, ha]
    simp only [List.mem_append, List.mem_cons]
    tauto

end

/-! ### Ordered keys -/

section
variable {α : Type} [LinearOrder α]

def Increasing (t : SearchTree α) : Prop := t.inorder.Pairwise (· < ·)

theorem increasing_node {l r : SearchTree α} {x : α} :
    Increasing (node l x r) ↔ Increasing l ∧ Increasing r ∧ (∀ y ∈ l.inorder, y < x) ∧
      ∀ y ∈ r.inorder, x < y := by
  unfold Increasing
  show (l.inorder ++ x :: r.inorder).Pairwise (· < ·) ↔ _
  rw [List.pairwise_append, List.pairwise_cons]
  constructor
  · rintro ⟨hl, ⟨hx, hr⟩, hlr⟩
    exact ⟨hl, hr, fun y hy => hlr y hy x (List.mem_cons_self ..), hx⟩
  · rintro ⟨hl, hr, hlx, hx⟩
    refine ⟨hl, ⟨hx, hr⟩, fun y hy z hz => ?_⟩
    rcases List.mem_cons.mp hz with rfl | hz
    · exact hlx y hy
    · exact lt_trans (hlx y hy) (hx z hz)

/- The keys met on the way to `v` in the order of the keys. -/
def path (v : α) : SearchTree α → List α
  | leaf => []
  | node l x r =>
    x :: match compare v x with
      | .lt => path v l
      | .gt => path v r
      | .eq => []

variable {cmp : α → α → Ordering} (hcmp : ∀ v x, cmp v x = .eq ↔ v = x)
include hcmp

/-- The keys stay increasing exactly if the comparison is right all along the path. -/
theorem increasing_getD_link_iff (v : α) {t : SearchTree α} (ht : Increasing t) :
    Increasing ((link cmp v t).getD t) ↔ ∀ x ∈ path v t, cmp v x = compare v x := by
  induction t with
  | leaf => simp [link, path, Increasing, inorder]
  | node l x r ihl ihr =>
    obtain ⟨hl, hr, hlx, hxr⟩ := increasing_node.mp ht
    unfold path
    rcases lt_trichotomy v x with hvx | rfl | hxv
    · rw [compare_lt_iff_lt.mpr hvx, List.forall_mem_cons, compare_lt_iff_lt.mpr hvx]
      cases hc : cmp v x with
      | eq => exact absurd ((hcmp v x).mp hc) (ne_of_lt hvx)
      | lt =>
        rw [getD_link_lt hc, increasing_node, ihl hl]
        have hside : ∀ y ∈ ((link cmp v l).getD l).inorder, y < x := by
          intro y hy
          rcases (mem_getD_link hcmp v y l).mp hy with rfl | hy
          · exact hvx
          · exact hlx y hy
        exact ⟨fun h => ⟨rfl, h.1⟩, fun h => ⟨h.2, hr, hside, hxr⟩⟩
      | gt =>
        -- the key ends up to the right of a larger one
        rw [getD_link_gt hc, increasing_node]
        have hv := (mem_getD_link hcmp v v r).mpr (.inl rfl)
        exact ⟨fun h => absurd (h.2.2.2 v hv) (lt_asymm hvx), fun h => nomatch h.1⟩
    · have heq : cmp v v = .eq := (hcmp v v).mpr rfl
      rw [getD_link_eq heq]
      simpa [heq] using ht
    · rw [compare_gt_iff_gt.mpr hxv, List.forall_mem_cons, compare_gt_iff_gt.mpr hxv]
      cases hc : cmp v x with
      | eq => exact absurd ((hcmp v x).mp hc) (ne_of_gt hxv)
      | gt =>
        rw [getD_link_gt hc, increasing_node, ihr hr]
        have hside : ∀ y ∈ ((link cmp v r).getD r).inorder, x < y := by
          intro y hy
          rcases (mem_getD_link hcmp v y r).mp hy with rfl | hy
          · exact hxv
          · exact hxr y hy
        exact ⟨fun h => ⟨rfl, h.2.1⟩, fun h => ⟨hl, h.2, hlx, hside⟩⟩
      | lt =>
        rw [getD_link_lt hc, increasing_node]
        have hv := (mem_getD_link hcmp v v l).mpr (.inl rfl)
        exact ⟨fun h => absurd (h.2.2.1 v hv) (lt_asymm hxv), fun h => nomatch h.1⟩

/-- A key of the tree is found exactly if the comparison is right all along the path. -/
theorem search_isSome_iff {v : α} {t : SearchTree α} (ht : Increasing t) (hv : v ∈ t.inorder) :
    (search cmp v t).isSome ↔ ∀ x ∈ path v t, cmp v x = compare v x := by
  rw [search_isSome_iff_link, ← increasing_getD_link_iff hcmp v ht]
  cases h : link cmp v t with
  | none => exact ⟨fun _ => ht, fun _ => rfl⟩
  | some t' =>
    refine ⟨fun hn => absurd hn (by simp), fun hi => ?_⟩
    -- linked although it is there, the key occurs twice
    obtain ⟨before, after, hb, ha⟩ := link_split h
    have hnodup : (before ++ v :: after).Nodup := by
      rw [← ha]
      exact List.Pairwise.imp (fun hlt => ne_of_lt hlt) hi
    rw [hb] at hv
    exact absurd hv (List.nodup_cons.mp (List.nodup_middle.mp hnodup)).1

end

end SearchTree

end CLib
