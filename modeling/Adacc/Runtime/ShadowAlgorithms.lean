import Adacc.Runtime.Shadow

/-!
# The standard algorithms over shadow iterators

The loops that the runtime library runs over shadow memory: `std::copy`, `std::copy_backward`,
`std::all_of`, and the loops that assign to every entry of a range in turn (`std::fill`, the
range-based `for` in `_sym_write_memory`). Each comes with the one statement its callers use, in
terms of `shadowAt` and `rangeUpdate`; no later proof looks at an iterator.

The two copies differ in what they tolerate. Walking upwards needs that an entry is written only
after it has been read, that is, no destination address at a smaller position is a source address;
walking downwards needs the same for larger positions. `stdCopy_spec` and `stdCopyBackward_spec`
state these conditions position by position, which covers wrapped ranges too.
-/

namespace Adacc

open ModularRange

variable {SymExpr : Type}

/-! ## Copying upwards -/

/-- The loop of `std::copy`, with the number of turns that remain. -/
def stdCopyLoop (last : ReadShadowIterator) :
    ℕ → ReadShadowIterator → WriteShadowIterator → ShadowPages SymExpr → ShadowPages SymExpr
  | 0, _, _, pages => pages
  | n + 1, first, result, pages =>
    if first.address_ = last.address_ then pages
    else
      let pages := result.assign pages (first.deref pages)
      let (result, pages) := result.next pages
      stdCopyLoop last n (first.next pages) result pages

/-- `std::copy` -/
def stdCopy (first last : ReadShadowIterator) (result : WriteShadowIterator)
    (pages : ShadowPages SymExpr) : ShadowPages SymExpr :=
  stdCopyLoop last (last.address_ - first.address_).toNat first result pages

private theorem stdCopyLoop_spec {pre : ShadowPages SymExpr} {last : ReadShadowIterator} {n : ℕ}
    (hn : n < 2 ^ 64) {first : ReadShadowIterator} {result : WriteShadowIterator}
    {pages : ShadowPages SymExpr} (hlast : last.address_ = first.address_ + BitVec.ofNat 64 n)
    (hfirst : first.Tracks pre pages) (hresult : result.Placed pages)
    (hsrc : ∀ i < n, shadowAt pages (first.address_ + BitVec.ofNat 64 i)
      = shadowAt pre (first.address_ + BitVec.ofNat 64 i))
    (hsafe : ∀ i < n, ∀ j < i, result.address_ + BitVec.ofNat 64 j
      ≠ first.address_ + BitVec.ofNat 64 i) :
    shadowAt (stdCopyLoop last n first result pages)
      = rangeUpdate (shadowAt pages) result.address_ n
          fun i ↦ shadowAt pre (first.address_ + BitVec.ofNat 64 i) := by
  induction n generalizing first result pages with
  | zero => rw [stdCopyLoop, rangeUpdate_zero]
  | succ n ih =>
    rw [stdCopyLoop, if_neg (hlast ▸ ne_add_ofNat (Nat.succ_pos n) hn)]
    -- the entry is read as it was before the loop, and written without losing a page
    have hread : first.deref pages = shadowAt pre first.address_ :=
      hfirst.deref_eq (by simpa only [add_ofNat_zero] using hsrc 0 (Nat.succ_pos n))
    have hwrite := hresult.shadowAt_assign (first.deref pages)
    have hle := WriteShadowIterator.pagesLe_assign pages result (first.deref pages)
    set pages₁ := result.assign pages (first.deref pages) with hpages₁
    have hnext := (hresult.weaken hle).next
    obtain ⟨haddr, hplaced, hsame, hle'⟩ := hnext
    rw [@ih (by omega) (first.next _) (result.next pages₁).1]
    · rw [haddr, hsame, hwrite, hread, ReadShadowIterator.next_address,
        ← rangeUpdate_update_first (shadowAt pages) result.address_ _ (Nat.lt_of_succ_lt hn),
        add_ofNat_zero]
      simp only [add_ofNat_succ]
    · rw [hlast, ReadShadowIterator.next_address, add_ofNat_succ]
    · exact (hfirst.weaken (hle.trans hle')).next
    · exact hplaced
    · intro i hi
      rw [hsame, hwrite, ReadShadowIterator.next_address, add_ofNat_succ,
        Function.update_of_ne, hsrc (i + 1) (by omega)]
      -- the entry just written is not the source of a later turn
      have := hsafe (i + 1) (by omega) 0 (Nat.succ_pos i)
      rw [add_ofNat_zero] at this
      exact this.symm
    · intro i hi j hj
      rw [haddr, ReadShadowIterator.next_address, add_ofNat_succ, add_ofNat_succ]
      exact hsafe (i + 1) (by omega) (j + 1) (by omega)

/-- Copying upwards is correct when no position is written before it is read. -/
theorem stdCopy_spec {pre pages : ShadowPages SymExpr} {first last : ReadShadowIterator}
    {result : WriteShadowIterator} (n : SizeT) (hlast : last.address_ = first.address_ + n)
    (hfirst : first.Tracks pre pages) (hresult : result.Placed pages)
    (hsame : shadowAt pages = shadowAt pre)
    (hsafe : ∀ i < n.toNat, ∀ j < i, result.address_ + BitVec.ofNat 64 j
      ≠ first.address_ + BitVec.ofNat 64 i) :
    shadowAt (stdCopy first last result pages)
      = rangeUpdate (shadowAt pre) result.address_ n.toNat
          fun i ↦ shadowAt pre (first.address_ + BitVec.ofNat 64 i) := by
  rw [stdCopy, hlast, add_sub_cancel_left, ← hsame]
  rw [stdCopyLoop_spec n.isLt (by rw [hlast, BitVec.ofNat_toNat, BitVec.setWidth_eq]) hfirst
    hresult (fun i _ ↦ by rw [hsame]) hsafe, hsame]

/-! ## Copying downwards -/

/-- The loop of `std::copy_backward`, with the number of turns that remain. -/
def stdCopyBackwardLoop (first : ReadShadowIterator) :
    ℕ → ReadShadowIterator → WriteShadowIterator → ShadowPages SymExpr → ShadowPages SymExpr
  | 0, _, _, pages => pages
  | n + 1, last, result, pages =>
    if first.address_ = last.address_ then pages
    else
      -- the right operand of an assignment is evaluated first
      let last := last.prev pages
      let value := last.deref pages
      let (result, pages) := result.prev pages
      stdCopyBackwardLoop first n last result (result.assign pages value)

/-- `std::copy_backward` -/
def stdCopyBackward (first last : ReadShadowIterator) (result : WriteShadowIterator)
    (pages : ShadowPages SymExpr) : ShadowPages SymExpr :=
  stdCopyBackwardLoop first (last.address_ - first.address_).toNat last result pages

private theorem stdCopyBackwardLoop_spec {pre : ShadowPages SymExpr} {first : ReadShadowIterator}
    {n : ℕ}
    (hn : n < 2 ^ 64) {dest : UIntPtr} {last : ReadShadowIterator} {result : WriteShadowIterator}
    {pages : ShadowPages SymExpr} (hlast : last.address_ = first.address_ + BitVec.ofNat 64 n)
    (hdest : result.address_ = dest + BitVec.ofNat 64 n)
    (htracks : last.Tracks pre pages) (hresult : result.Placed pages)
    (hsrc : ∀ i < n, shadowAt pages (first.address_ + BitVec.ofNat 64 i)
      = shadowAt pre (first.address_ + BitVec.ofNat 64 i))
    (hsafe : ∀ j < n, ∀ i < j, dest + BitVec.ofNat 64 j ≠ first.address_ + BitVec.ofNat 64 i) :
    shadowAt (stdCopyBackwardLoop first n last result pages)
      = rangeUpdate (shadowAt pages) dest n
          fun i ↦ shadowAt pre (first.address_ + BitVec.ofNat 64 i) := by
  induction n generalizing last result pages with
  | zero => rw [stdCopyBackwardLoop, rangeUpdate_zero]
  | succ n ih =>
    rw [stdCopyBackwardLoop, if_neg (hlast ▸ ne_add_ofNat (Nat.succ_pos n) hn)]
    have hback : ∀ a : UIntPtr, a + BitVec.ofNat 64 (n + 1) - 1 = a + BitVec.ofNat 64 n := by
      intro a
      rw [← add_ofNat_add]
      exact add_sub_cancel_right (a + BitVec.ofNat 64 n) (BitVec.ofNat 64 1)
    -- both iterators step back before they are used
    have hlast₁ : (last.prev pages).address_ = first.address_ + BitVec.ofNat 64 n := by
      rw [ReadShadowIterator.prev_address, hlast, hback]
    have hread : (last.prev pages).deref pages
        = shadowAt pre (first.address_ + BitVec.ofNat 64 n) := by
      rw [← hlast₁]
      apply htracks.prev.deref_eq
      rw [hlast₁, hsrc n (Nat.lt_succ_self n)]
    simp only [hread]
    generalize hv : shadowAt pre (first.address_ + BitVec.ofNat 64 n) = v
    obtain ⟨haddr, hplaced, hsame, hle⟩ := hresult.prev
    rw [hdest, hback] at haddr
    have hwrite := hplaced.shadowAt_assign v
    have hle₁ := WriteShadowIterator.pagesLe_assign (result.prev pages).2 (result.prev pages).1 v
    rw [haddr, hsame] at hwrite
    rw [ih (by omega) hlast₁ haddr (htracks.prev.weaken (hle.trans hle₁)) (hplaced.weaken hle₁)]
    · rw [hwrite, ← hv]
      exact rangeUpdate_update_last (shadowAt pages) dest
        (fun i ↦ shadowAt pre (first.address_ + BitVec.ofNat 64 i)) (Nat.lt_of_succ_lt hn)
    · intro i hi
      rw [hwrite, Function.update_of_ne, hsrc i (by omega)]
      -- the entry just written is not the source of a later turn, which is lower
      exact (hsafe n (Nat.lt_succ_self n) i hi).symm
    · intro j hj i hi
      exact hsafe j (by omega) i hi

/-- Copying downwards is correct when no position is written before it is read. -/
theorem stdCopyBackward_spec {pre pages : ShadowPages SymExpr} {first last : ReadShadowIterator}
    {result : WriteShadowIterator} {dest : UIntPtr} (n : SizeT)
    (hlast : last.address_ = first.address_ + n) (hdest : result.address_ = dest + n)
    (htracks : last.Tracks pre pages) (hresult : result.Placed pages)
    (hsame : shadowAt pages = shadowAt pre)
    (hsafe : ∀ j < n.toNat, ∀ i < j, dest + BitVec.ofNat 64 j
      ≠ first.address_ + BitVec.ofNat 64 i) :
    shadowAt (stdCopyBackward first last result pages)
      = rangeUpdate (shadowAt pre) dest n.toNat
          fun i ↦ shadowAt pre (first.address_ + BitVec.ofNat 64 i) := by
  have hn : BitVec.ofNat 64 n.toNat = n := by rw [BitVec.ofNat_toNat, BitVec.setWidth_eq]
  rw [stdCopyBackward, hlast, add_sub_cancel_left]
  rw [stdCopyBackwardLoop_spec n.isLt (by rw [hlast, hn]) (by rw [hdest, hn]) htracks hresult
    (fun i _ ↦ by rw [hsame]) hsafe, hsame]

/-! ## Assigning to every entry -/

/-- A loop that assigns `f i, f (i + 1), …` to the entries from `first` on, where `i` counts the
turns. -/
def assignLoop (f : SizeT → Option SymExpr) (last : WriteShadowIterator) :
    ℕ → SizeT → WriteShadowIterator → ShadowPages SymExpr → ShadowPages SymExpr
  | 0, _, _, pages => pages
  | n + 1, i, first, pages =>
    if first.address_ = last.address_ then pages
    else
      let (first, pages) := first.next (first.assign pages (f i))
      assignLoop f last n (i + 1) first pages

/-- `for (SymExpr &entry : range(first, last)) { entry = f(i); i++; }` with `i` starting at 0. -/
def forAssign (f : SizeT → Option SymExpr) (first last : WriteShadowIterator)
    (pages : ShadowPages SymExpr) : ShadowPages SymExpr :=
  assignLoop f last (last.address_ - first.address_).toNat 0 first pages

private theorem assignLoop_spec (f : SizeT → Option SymExpr) {last : WriteShadowIterator} {n : ℕ}
    (hn : n < 2 ^ 64) {i : SizeT} {first : WriteShadowIterator} {pages : ShadowPages SymExpr}
    (hlast : last.address_ = first.address_ + BitVec.ofNat 64 n) (hfirst : first.Placed pages) :
    shadowAt (assignLoop f last n i first pages)
      = rangeUpdate (shadowAt pages) first.address_ n fun k ↦ f (i + BitVec.ofNat 64 k) := by
  induction n generalizing i first pages with
  | zero => rw [assignLoop, rangeUpdate_zero]
  | succ n ih =>
    rw [assignLoop, if_neg (hlast ▸ ne_add_ofNat (Nat.succ_pos n) hn)]
    have hwrite := hfirst.shadowAt_assign (f i)
    obtain ⟨haddr, hplaced, hsame, -⟩ :=
      (hfirst.weaken (WriteShadowIterator.pagesLe_assign pages first (f i))).next
    rw [ih (by omega) (by rw [haddr, hlast, add_ofNat_succ]) hplaced, haddr, hsame, hwrite,
      ← rangeUpdate_update_first (shadowAt pages) first.address_ _ (Nat.lt_of_succ_lt hn),
      add_ofNat_zero]
    simp only [add_ofNat_succ]

private theorem forAssign_spec (f : SizeT → Option SymExpr) {first last : WriteShadowIterator}
    (n : SizeT) {pages : ShadowPages SymExpr} (hlast : last.address_ = first.address_ + n)
    (hfirst : first.Placed pages) :
    shadowAt (forAssign f first last pages)
      = rangeUpdate (shadowAt pages) first.address_ n.toNat fun i ↦ f (BitVec.ofNat 64 i) := by
  rw [forAssign, hlast, add_sub_cancel_left,
    assignLoop_spec f n.isLt (by rw [hlast, BitVec.ofNat_toNat, BitVec.setWidth_eq]) hfirst]
  congr 1
  funext i
  rw [zero_add]

/-! ## Views -/

/-- `ReadWriteShadow(addr, length)`, with both iterators made: `begin()` and `end()` each create
the page that they are on. -/
def readWriteShadow (pages : ShadowPages SymExpr) (addr : UIntPtr) (length : SizeT) :
    WriteShadowIterator × WriteShadowIterator × ShadowPages SymExpr :=
  let (first, pages) := WriteShadowIterator.mk' pages addr
  let (last, pages) := WriteShadowIterator.mk' pages (addr + length)
  (first, last, pages)

/-- The loop over a whole view. -/
def assignShadow (f : SizeT → Option SymExpr) (addr : UIntPtr) (length : SizeT)
    (pages : ShadowPages SymExpr) : ShadowPages SymExpr :=
  let (first, last, pages) := readWriteShadow pages addr length
  forAssign f first last pages

theorem shadowAt_assignShadow (f : SizeT → Option SymExpr) (addr : UIntPtr) (length : SizeT)
    (pages : ShadowPages SymExpr) :
    shadowAt (assignShadow f addr length pages)
      = rangeUpdate (shadowAt pages) addr length.toNat fun i ↦ f (BitVec.ofNat 64 i) := by
  have hfirst := WriteShadowIterator.reached_mk' pages addr
  have hlast := WriteShadowIterator.reached_mk' (WriteShadowIterator.mk' pages addr).2
    (addr + length)
  have h := forAssign_spec f length (hlast.address_eq.trans (by rw [hfirst.address_eq]))
    (hfirst.placed.weaken hlast.pagesLe)
  rw [hlast.shadowAt_eq, hfirst.shadowAt_eq, hfirst.address_eq] at h
  exact h

/-! ## Testing every entry -/

/-- The loop of `std::all_of` with the test for null, with the number of turns that remain. -/
def stdAllNullLoop (pages : ShadowPages SymExpr) (last : ReadShadowIterator) :
    ℕ → ReadShadowIterator → Bool
  | 0, _ => true
  | n + 1, first =>
    if first.address_ = last.address_ then true
    else if (first.deref pages).isNone then stdAllNullLoop pages last n (first.next pages)
    else false

/-- `std::all_of(first, last, [](SymExpr expr) { return (expr == nullptr); })` -/
def stdAllNull (pages : ShadowPages SymExpr) (first last : ReadShadowIterator) : Bool :=
  stdAllNullLoop pages last (last.address_ - first.address_).toNat first

private theorem stdAllNullLoop_iff {pages : ShadowPages SymExpr} {last : ReadShadowIterator} {n : ℕ}
    (hn : n < 2 ^ 64) {first : ReadShadowIterator}
    (hlast : last.address_ = first.address_ + BitVec.ofNat 64 n)
    (hfirst : first.Tracks pages pages) :
    stdAllNullLoop pages last n first = true ↔
      ∀ i < n, shadowAt pages (first.address_ + BitVec.ofNat 64 i) = none := by
  induction n generalizing first with
  | zero => simp [stdAllNullLoop]
  | succ n ih =>
    rw [stdAllNullLoop, if_neg (hlast ▸ ne_add_ofNat (Nat.succ_pos n) hn), hfirst.deref_eq rfl]
    rw [forall_lt_succ_add_ofNat (shadowAt pages · = none)]
    cases h : shadowAt pages first.address_ with
    | some e => simp
    | none =>
      rw [Option.isNone_none, if_pos rfl, ih (by omega) (by
        rw [hlast, ReadShadowIterator.next_address, add_ofNat_succ]) hfirst.next]
      simp only [ReadShadowIterator.next_address, true_and]

/-- `isConcrete` -/
def isConcrete (pages : ShadowPages SymExpr) (addr : UIntPtr) (nbytes : SizeT) : Bool :=
  -- fast path for allocations within one page
  if pageStart addr = pageStart (addr + nbytes) ∧ (pages.lookup (pageStart addr)).isNone then true
  else
    stdAllNull pages (ReadShadowIterator.mk' pages addr)
      (ReadShadowIterator.mk' pages (addr + nbytes))

/-- What the fast path relies on: if it is taken, the range has no expression. -/
def FastPathSound (pages : ShadowPages SymExpr) (addr : UIntPtr) (nbytes : SizeT) : Prop :=
  pageStart addr = pageStart (addr + nbytes) → pages.lookup (pageStart addr) = none →
    ∀ i < nbytes.toNat, shadowAt pages (addr + BitVec.ofNat 64 i) = none

/-- The whole range lies on the page of its first byte when both ends do, unless the range comes
back to that page after having wrapped around the address space. -/
theorem pageStart_add_of_lt {addr : UIntPtr} {nbytes : SizeT}
    (h : pageStart addr = pageStart (addr + nbytes))
    (hwrap : (pageOffset addr).toNat + nbytes.toNat < 2 ^ 64) {i : ℕ} (hi : i < nbytes.toNat) :
    pageStart (addr + BitVec.ofNat 64 i) = pageStart addr := by
  rw [pageStart_eq_iff] at h ⊢
  rw [toNat_pageOffset] at hwrap
  rw [BitVec.toNat_add] at h ⊢
  rw [BitVec.toNat_ofNat]
  have := addr.isLt
  have := nbytes.isLt
  omega

theorem FastPathSound.of_lt (pages : ShadowPages SymExpr) {addr : UIntPtr} {nbytes : SizeT}
    (hwrap : (pageOffset addr).toNat + nbytes.toNat < 2 ^ 64) :
    FastPathSound pages addr nbytes := by
  intro hpage hnone i hi
  apply shadowAt_of_lookup_eq_none
  rw [pageStart_add_of_lt hpage hwrap hi, hnone]

theorem FastPathSound.of_length_lt {pages : ShadowPages SymExpr} {addr : UIntPtr} {nbytes : SizeT}
    (h : nbytes.toNat < 2 ^ 63) : FastPathSound pages addr nbytes :=
  .of_lt pages (by rw [toNat_pageOffset]; omega)

/-- `isConcrete` holds exactly when every entry of the range is null, exactly when the fast path is
sound. -/
theorem isConcrete_iff_iff (pages : ShadowPages SymExpr) (addr : UIntPtr) (nbytes : SizeT) :
    (isConcrete pages addr nbytes = true ↔
        ∀ i < nbytes.toNat, shadowAt pages (addr + BitVec.ofNat 64 i) = none) ↔
      FastPathSound pages addr nbytes := by
  -- the slow path is right whatever the range is
  have hsub : addr + nbytes - addr = nbytes := add_sub_cancel_left addr nbytes
  have hloop : stdAllNull pages (ReadShadowIterator.mk' pages addr)
        (ReadShadowIterator.mk' pages (addr + nbytes)) = true ↔
      ∀ i < nbytes.toNat, shadowAt pages (addr + BitVec.ofNat 64 i) = none := by
    rw [stdAllNull]
    exact hsub.symm ▸ stdAllNullLoop_iff nbytes.isLt
      (by rw [BitVec.ofNat_toNat, BitVec.setWidth_eq]; rfl)
      (ReadShadowIterator.Tracks.mk' (PagesLe.refl pages) addr)
  unfold isConcrete
  split
  · next h =>
    have hnone : pages.lookup (pageStart addr) = none := Option.isNone_iff_eq_none.mp h.2
    exact ⟨fun hall _ _ ↦ hall.mp rfl, fun hfast ↦ iff_of_true rfl (hfast h.1 hnone)⟩
  · next h =>
    refine iff_of_true hloop fun hpage hnone ↦ absurd ⟨hpage, ?_⟩ h
    rw [hnone, Option.isNone_none]

theorem isConcrete_iff {pages : ShadowPages SymExpr} {addr : UIntPtr} {nbytes : SizeT}
    (hfast : FastPathSound pages addr nbytes) :
    isConcrete pages addr nbytes = true ↔
      ∀ i < nbytes.toNat, shadowAt pages (addr + BitVec.ofNat 64 i) = none :=
  (isConcrete_iff_iff pages addr nbytes).mpr hfast

/-- An empty range is concrete. -/
theorem isConcrete_zero (pages : ShadowPages SymExpr) (addr : UIntPtr) :
    isConcrete pages addr 0 = true := by
  have hempty : ∀ i < (0 : SizeT).toNat, shadowAt pages (addr + BitVec.ofNat 64 i) = none :=
    fun i hi ↦ absurd hi (Nat.not_lt_zero i)
  exact (isConcrete_iff fun _ _ ↦ hempty).mpr hempty

end Adacc
