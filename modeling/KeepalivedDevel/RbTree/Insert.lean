import KeepalivedDevel.CLib.CInt
import KeepalivedDevel.CLib.SearchTree
import Mathlib.Data.List.Induction

/-!
# `code_test/rbtree_test.c`

`rbn_search` and `rbn_insert` descend a tree of `int` values by the sign of a
difference, which wraps. Of the kernel's tree functions only this is used: what
`rb_insert_color` makes of the tree has the same in-order sequence. The values
inserted are in the tree whatever happens; that they are in order and can be
found again depends on the differences of the values.
-/

namespace KeepalivedDevel.RbTree
open CLib CLib.SearchTree CLib.CInt

/-- `rbn_search` (`rbtree_test.c:15-34`): the value of the node found. -/
def rbnSearch (val : CInt) : SearchTree CInt → Option CInt
  | leaf => none
  | node left data right =>
    let result := sub val data
    if result < 0 then rbnSearch val left
    else if result > 0 then rbnSearch val right
    else some data

/-- The loop of `rbn_insert` with `rb_link_node` (`rbtree_test.c:36-56`); `none`
if it returns false. -/
def rbnLink (val : CInt) : SearchTree CInt → Option (SearchTree CInt)
  | leaf => some (node leaf val leaf)
  | node left this right =>
    let result := sub val this
    if result < 0 then (rbnLink val left).map fun l => node l this right
    else if result > 0 then (rbnLink val right).map fun r => node left this r
    else none

/-- What is assumed of `rb_insert_color`. -/
structure InsertColor where
  color : SearchTree CInt → SearchTree CInt
  inorder_color : ∀ t, (color t).inorder = t.inorder

def rbnInsert (rb : InsertColor) (t : SearchTree CInt) (val : CInt) : Bool × SearchTree CInt :=
  match rbnLink val t with
  | none => (false, t)
  | some t' => (true, rb.color t')

/- The tree after some calls, each of which may be rebalanced in its own way. -/
def insertAll (calls : List (InsertColor × CInt)) : SearchTree CInt :=
  calls.foldl (fun t c => (rbnInsert c.1 t c.2).2) leaf

structure Law (t : SearchTree CInt) (inserted : List CInt) : Prop where
  increasing : Increasing t
  insert : ∀ rb val, (rbnInsert rb t val).1 = false ↔ val ∈ t.inorder
  unchanged : ∀ rb val, (rbnInsert rb t val).1 = false → (rbnInsert rb t val).2 = t
  search : ∀ val, (rbnSearch val t).isSome ↔ val ∈ inserted

/-! ### The comparison -/

def rbnCmp (val x : CInt) : Ordering :=
  if sub val x < 0 then .lt else if sub val x > 0 then .gt else .eq

theorem rbnSearch_eq (val : CInt) (t : SearchTree CInt) : rbnSearch val t = search rbnCmp val t := by
  induction t with
  | leaf => rfl
  | node left data right ihl ihr =>
    unfold rbnSearch search rbnCmp
    rw [ihl, ihr]
    simp only
    split_ifs <;> rfl

theorem rbnLink_eq (val : CInt) (t : SearchTree CInt) : rbnLink val t = link rbnCmp val t := by
  induction t with
  | leaf => rfl
  | node left this right ihl ihr =>
    unfold rbnLink link rbnCmp
    rw [ihl, ihr]
    simp only
    split_ifs <;> rfl

theorem rbnCmp_eq_iff (val x : CInt) : rbnCmp val x = .eq ↔ val = x := by
  have hv := val.property
  have hx := x.property
  have hs := sub_eq val x
  unfold NoOverflow at hs
  rw [Subtype.ext_iff]
  unfold rbnCmp
  split_ifs with hlt hgt
  · simp only [false_iff]
    omega
  · simp only [false_iff]
    omega
  · simp only [true_iff]
    omega

/- The sign of the difference is the order exactly if the difference fits. -/
theorem rbnCmp_eq_compare_iff (val x : CInt) :
    rbnCmp val x = compare val x ↔ NoOverflow val x := by
  have hv := val.property
  have hx := x.property
  have hs := sub_eq val x
  unfold NoOverflow at hs ⊢
  unfold rbnCmp
  rcases lt_trichotomy val x with h | rfl | h
  · rw [compare_lt_iff_lt.mpr h]
    have hlt : val.val < x.val := h
    split_ifs <;> simp only [true_iff, false_iff] <;> omega
  · rw [compare_eq_iff_eq.mpr rfl]
    split_ifs <;> simp only [true_iff, false_iff] <;> omega
  · rw [compare_gt_iff_gt.mpr h]
    have hlt : x.val < val.val := h
    split_ifs <;> simp only [true_iff, false_iff] <;> omega

/-! ### One call -/

theorem inorder_rbnInsert (rb : InsertColor) (t : SearchTree CInt) (val : CInt) :
    (rbnInsert rb t val).2.inorder = ((link rbnCmp val t).getD t).inorder := by
  unfold rbnInsert
  rw [rbnLink_eq]
  cases link rbnCmp val t with
  | none => rfl
  | some t' => exact rb.inorder_color t'

theorem mem_rbnInsert (rb : InsertColor) (t : SearchTree CInt) (val y : CInt) :
    y ∈ (rbnInsert rb t val).2.inorder ↔ y = val ∨ y ∈ t.inorder := by
  rw [inorder_rbnInsert]
  exact mem_getD_link rbnCmp_eq_iff val y t

theorem rbnInsert_false_iff (rb : InsertColor) (t : SearchTree CInt) (val : CInt) :
    (rbnInsert rb t val).1 = false ↔ (rbnSearch val t).isSome := by
  rw [rbnSearch_eq, search_isSome_iff_link, ← rbnLink_eq]
  unfold rbnInsert
  cases rbnLink val t <;> simp

theorem rbnInsert_unchanged {rb : InsertColor} {t : SearchTree CInt} {val : CInt}
    (h : (rbnInsert rb t val).1 = false) : (rbnInsert rb t val).2 = t := by
  unfold rbnInsert at h ⊢
  cases hl : rbnLink val t with
  | none => rfl
  | some t' =>
    rw [hl] at h
    cases h

/- What is found is in the tree; what is in the tree is found if the path to it
has no overflow. -/
theorem mem_of_rbnSearch {t : SearchTree CInt} {val : CInt} (h : (rbnSearch val t).isSome) :
    val ∈ t.inorder := by
  rw [rbnSearch_eq, search_isSome_iff_link] at h
  exact mem_of_link_eq_none rbnCmp_eq_iff h

theorem rbnSearch_isSome_iff {t : SearchTree CInt} {val : CInt} (ht : Increasing t)
    (hv : val ∈ t.inorder) : (rbnSearch val t).isSome ↔ ∀ x ∈ path val t, NoOverflow val x := by
  rw [rbnSearch_eq, search_isSome_iff rbnCmp_eq_iff ht hv]
  simp only [rbnCmp_eq_compare_iff]

theorem increasing_rbnInsert_iff (rb : InsertColor) {t : SearchTree CInt} (val : CInt)
    (ht : Increasing t) :
    Increasing (rbnInsert rb t val).2 ↔ ∀ x ∈ path val t, NoOverflow val x := by
  unfold Increasing
  rw [inorder_rbnInsert]
  show Increasing _ ↔ _
  rw [increasing_getD_link_iff rbnCmp_eq_iff val ht]
  simp only [rbnCmp_eq_compare_iff]

/-! ### All calls -/

theorem mem_insertAll (calls : List (InsertColor × CInt)) (y : CInt) :
    y ∈ (insertAll calls).inorder ↔ y ∈ calls.map Prod.snd := by
  unfold insertAll
  induction calls using List.reverseRecOn with
  | nil => simp [inorder]
  | append_singleton calls c ih =>
    rw [List.foldl_append]
    show y ∈ (rbnInsert c.1 _ c.2).2.inorder ↔ _
    rw [mem_rbnInsert, ih, List.map_append, List.mem_append]
    simp only [List.map_cons, List.map_nil, List.mem_singleton]
    tauto

theorem insertAll_concat (calls : List (InsertColor × CInt)) (c : InsertColor × CInt) :
    insertAll (calls ++ [c]) = (rbnInsert c.1 (insertAll calls) c.2).2 := by
  unfold insertAll
  rw [List.foldl_append]
  rfl

/-- No difference on the way to the place of `val` overflows. -/
def PathFits (t : SearchTree CInt) (val : CInt) : Prop := ∀ x ∈ path val t, NoOverflow val x

theorem law_iff {t : SearchTree CInt} {inserted : List CInt} (ht : Increasing t)
    (hmem : ∀ val, val ∈ t.inorder ↔ val ∈ inserted) :
    Law t inserted ↔ ∀ val ∈ inserted, PathFits t val := by
  have hfound : ∀ val ∈ inserted, ((rbnSearch val t).isSome ↔ PathFits t val) := by
    intro val hval
    exact rbnSearch_isSome_iff ht ((hmem val).mpr hval)
  constructor
  · intro h val hval
    exact (hfound val hval).mp ((h.search val).mpr hval)
  · intro h
    have hsearch : ∀ val, (rbnSearch val t).isSome ↔ val ∈ inserted := by
      intro val
      refine ⟨fun hsome => (hmem val).mp (mem_of_rbnSearch hsome), fun hval => ?_⟩
      exact (hfound val hval).mpr (h val hval)
    refine ⟨ht, ?_, fun rb val => rbnInsert_unchanged, hsearch⟩
    intro rb val
    rw [rbnInsert_false_iff, hsearch, hmem]

/-- The calls go right as long as each value, when it is inserted, and every value inserted
before, in the tree as it is then, has a way without an overflow. -/
def WaysFit (calls : List (InsertColor × CInt)) : Prop :=
  ∀ done, done <+: calls →
    (∀ val ∈ done.map Prod.snd, PathFits (insertAll done) val) ∧
      ∀ c, done ++ [c] <+: calls → PathFits (insertAll done) c.2

theorem increasing_insertAll {calls : List (InsertColor × CInt)}
    (h : ∀ done c, done ++ [c] <+: calls → PathFits (insertAll done) c.2) :
    Increasing (insertAll calls) := by
  induction calls using List.reverseRecOn with
  | nil => exact List.Pairwise.nil
  | append_singleton calls c ih =>
    have ht := ih fun done d hd => h done d (hd.trans (List.prefix_append calls [c]))
    rw [insertAll_concat, increasing_rbnInsert_iff c.1 c.2 ht]
    exact h calls c (List.prefix_refl _)

/-- For every list of calls, each rebalanced in its own way: the law holds after each of them
exactly if no difference overflows on the way to a value inserted. -/
theorem law_iff_noOverflow (calls : List (InsertColor × CInt)) :
    (∀ done, done <+: calls → Law (insertAll done) (done.map Prod.snd)) ↔ WaysFit calls := by
  constructor
  · intro h done hdone
    have hlaw := h done hdone
    refine ⟨(law_iff hlaw.increasing (mem_insertAll done)).mp hlaw, fun c hc => ?_⟩
    have hnext := (h (done ++ [c]) hc).increasing
    rwa [insertAll_concat, increasing_rbnInsert_iff c.1 c.2 hlaw.increasing] at hnext
  · intro h done hdone
    have ht := increasing_insertAll fun front c hc => (h front
      ((List.prefix_append front [c]).trans (hc.trans hdone))).2 c (hc.trans hdone)
    exact (law_iff ht (mem_insertAll done)).mpr (h done hdone).1

def asLinked : InsertColor := ⟨id, fun _ => rfl⟩

/- The difference of the two values wraps: the negative one is linked to the
right. -/
theorem not_law_max_neg :
    ¬ ∀ calls : List (InsertColor × CInt), Law (insertAll calls) (calls.map Prod.snd) := by
  intro h
  have hl := h [(asLinked, ⟨2147483647, by decide⟩), (asLinked, ⟨-2, by decide⟩)]
  exact absurd hl.increasing (by unfold Increasing; decide)

end KeepalivedDevel.RbTree
