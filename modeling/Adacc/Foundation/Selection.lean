import Mathlib.Data.List.Basic
import Mathlib.Order.Basic
import Mathlib.Order.Lattice
import Mathlib.Order.Defs.LinearOrder

/-!
# Selection by a key

Things are taken from a collection one at a time, at each turn one with the greatest key among those
that have not been taken yet. The collection is listed anew at every turn, in any order.

If different members have different keys, nothing depends on how they are listed: the members come
in decreasing order, each of them once, and then nothing comes (`round_seenAfter`). Ties would break
this, since the last one of the list wins among equals.
-/

namespace Selection

variable {α κ : Type*} [LinearOrder κ]

/-! ## The greatest member -/

/-- The better of two by their keys, and the second one of equals. -/
def better (key : α → κ) (a b : α) : α := if key a ≤ key b then b else a

/-- A member with the greatest key, and the last one of these. -/
def maxByKey (key : α → κ) : List α → Option α
  | [] => none
  | a :: l => some (l.foldl (better key) a)

variable {key : α → κ}

theorem foldl_better (a : α) (l : List α) :
    l.foldl (better key) a ∈ a :: l ∧ ∀ b ∈ a :: l, key b ≤ key (l.foldl (better key) a) := by
  induction l generalizing a with
  | nil => exact ⟨List.mem_cons_self, List.forall_mem_singleton.mpr le_rfl⟩
  | cons b l ih =>
    obtain ⟨hmem, hmax⟩ := ih (better key a b)
    obtain ⟨hbetter, hrest⟩ := List.forall_mem_cons.mp hmax
    have hcases : (better key a b = a ∨ better key a b = b) ∧
        key a ≤ key (better key a b) ∧ key b ≤ key (better key a b) := by
      unfold better
      split
      · next hle => exact ⟨.inr rfl, hle, le_rfl⟩
      · next hlt => exact ⟨.inl rfl, le_rfl, (not_le.mp hlt).le⟩
    obtain ⟨hab, ha, hb⟩ := hcases
    rw [List.foldl_cons]
    refine ⟨?_, List.forall_mem_cons.mpr ⟨ha.trans hbetter,
      List.forall_mem_cons.mpr ⟨hb.trans hbetter, hrest⟩⟩⟩
    obtain heq | hmem := List.mem_cons.mp hmem
    · rw [heq, List.mem_cons, List.mem_cons]
      exact hab.imp_right .inl
    · exact List.mem_cons_of_mem _ (List.mem_cons_of_mem _ hmem)

/-- A member whose key exceeds all others is the one that is found. -/
theorem maxByKey_eq_some {l : List α} {a : α} (ha : a ∈ l)
    (hmax : ∀ b ∈ l, b = a ∨ key b < key a) : maxByKey key l = some a := by
  cases l with
  | nil => exact absurd ha List.not_mem_nil
  | cons b l =>
    obtain ⟨hmem, hbest⟩ := @foldl_better α κ _ key b l
    rw [maxByKey]
    obtain heq | hlt := hmax _ hmem
    · rw [heq]
    · exact absurd (hbest a ha) (not_le.mpr hlt)

/-! ## Rounds -/

variable [DecidableEq α]

/-- What is taken from a listing when some members have been seen. -/
def round (key : α → κ) (listing seen : List α) : Option α :=
  maxByKey key (listing.filter (· ∉ seen))

/-- The members seen after some rounds, where the collection is listed anew in each. -/
def seenAfter (key : α → κ) (listings : ℕ → List α) : ℕ → List α
  | 0 => []
  | n + 1 => (round key (listings n) (seenAfter key listings n)).toList ++ seenAfter key listings n

/-- The members in decreasing order. -/
def ordered (key : α → κ) (l : List α) : List α := l.mergeSort fun a b ↦ decide (key b ≤ key a)

omit [DecidableEq α] in
/-- The order is strict when different members have different keys. -/
theorem pairwise_ordered {l : List α} (hl : l.Nodup)
    (hkey : ∀ a ∈ l, ∀ b ∈ l, key a = key b → a = b) :
    (ordered key l).Pairwise fun a b ↦ key b < key a := by
  have hsorted : (ordered key l).Pairwise fun a b ↦ decide (key b ≤ key a) = true :=
    List.pairwise_mergeSort
      (fun a b c hab hbc ↦ decide_eq_true
        ((of_decide_eq_true hbc).trans (of_decide_eq_true hab)))
      (fun a b ↦ (le_total (key b) (key a)).elim (fun h ↦ by simp [h]) fun h ↦ by simp [h]) l
  have hperm : (ordered key l).Perm l := List.mergeSort_perm l _
  refine (hsorted.and (hperm.nodup_iff.mpr hl)).imp_of_mem fun ha hb hab ↦ ?_
  refine lt_of_le_of_ne (of_decide_eq_true hab.1) fun heq ↦ hab.2 ?_
  exact hkey _ (hperm.mem_iff.mp ha) _ (hperm.mem_iff.mp hb) heq.symm

/-- A round takes the next member in the order. -/
theorem round_eq_getElem? {order listing seen : List α} {n : ℕ}
    (horder : order.Pairwise fun a b ↦ key b < key a) (hlisting : ∀ a, a ∈ listing ↔ a ∈ order)
    (hseen : ∀ a, a ∈ seen ↔ a ∈ order.take n) : round key listing seen = order[n]? := by
  have hmem : ∀ a, a ∈ listing.filter (· ∉ seen) ↔ a ∈ order ∧ a ∉ order.take n := by
    intro a
    rw [List.mem_filter, decide_eq_true_iff, hlisting, hseen]
  have hnodup : order.Nodup := horder.imp fun hlt heq ↦ (heq ▸ hlt).false
  have hdisjoint := List.disjoint_take_drop hnodup (Nat.le_refl n)
  have hsplit : ∀ a, a ∈ order ↔ a ∈ order.take n ∨ a ∈ order.drop n := by
    intro a
    rw [← List.mem_append, List.take_append_drop]
  have hdrop : ∀ a, a ∈ listing.filter (· ∉ seen) ↔ a ∈ order.drop n := by
    intro a
    rw [hmem, hsplit]
    exact ⟨fun h ↦ h.1.resolve_left h.2, fun h ↦ ⟨.inr h, fun htake ↦ hdisjoint htake h⟩⟩
  cases hrest : order.drop n with
  | nil =>
    have hnil : listing.filter (· ∉ seen) = [] := by
      refine List.eq_nil_iff_forall_not_mem.mpr fun a ha ↦ ?_
      rw [hdrop, hrest] at ha
      exact List.not_mem_nil ha
    rw [round, hnil, List.getElem?_eq_none (List.drop_eq_nil_iff.mp hrest)]
    rfl
  | cons a rest =>
    have hlast : (order.drop n).Pairwise fun a b ↦ key b < key a := horder.drop
    rw [hrest, List.pairwise_cons] at hlast
    have hget : order[n]? = some a := by
      rw [← List.head?_drop, hrest, List.head?_cons]
    rw [hget, round]
    refine maxByKey_eq_some ((hdrop a).mpr (hrest ▸ List.mem_cons_self)) fun b hb ↦ ?_
    rw [hdrop, hrest, List.mem_cons] at hb
    exact hb.imp_right (hlast.1 b)

/-- The members come in their order, each once, whatever the listings are. -/
theorem round_seenAfter {order : List α} {listings : ℕ → List α}
    (horder : order.Pairwise fun a b ↦ key b < key a)
    (hlistings : ∀ n a, a ∈ listings n ↔ a ∈ order) (n : ℕ) :
    round key (listings n) (seenAfter key listings n) = order[n]? := by
  refine round_eq_getElem? horder (hlistings n) ?_
  induction n with
  | zero => exact fun a ↦ iff_of_false List.not_mem_nil List.not_mem_nil
  | succ n ih =>
    intro a
    rw [seenAfter, round_eq_getElem? horder (hlistings n) ih, List.mem_append, ih,
      List.take_add_one, List.mem_append, or_comm]

end Selection
