import Adacc.Foundation.ModularRange
import Adacc.Runtime.Backend
import Mathlib.Data.Finmap

/-!
# Shadow memory

`Shadow.h`: the shadow of a 4096-byte page is an array with one expression per byte, null for a
concrete byte, and `g_shadow_pages` maps the addresses of shadowed pages to their arrays. Two
iterators walk over it. The reading one carries a null pointer while it is on a page without
shadow; the writing one creates the shadow of every page it enters.

## Pointers

A `SymExpr *` into the shadow is a page together with an entry number, so that pointer arithmetic
can leave the array by one at either end, as it does just before an iterator changes pages. A
pointer keeps denoting the array of its page whatever else is added to `g_shadow_pages`; shadow
arrays are never freed. An access outside the array reads null and writes nothing. It does not
occur: `Tracks` and `Placed` below say where an iterator's pointer is, and every loop keeps them.

## Stale null pointers

A reading iterator looks its page up when it enters it. If the page has no shadow then, the pointer
stays null until the next page even when a writing iterator creates the shadow meanwhile. `Tracks`
therefore relates an iterator to *two* page maps, the current one and the one at the start of the
operation: a null pointer is justified by the page having had no shadow at the start.

## Loops

The standard algorithms compare iterators by address and advance them by one, so a loop from
`first` to `last` makes exactly `last.address_ - first.address_` turns (modulo `2 ^ 64`). That
number is the fuel of the recursive definitions; the comparison is still made at each turn.
-/

namespace Adacc

open ModularRange

/-! ## Pages -/

def kPageSize : UIntPtr := 4096

/-- The page address of an address. -/
def pageStart (addr : UIntPtr) : UIntPtr := addr &&& ~~~(kPageSize - 1)

/-- The offset of an address in its page. -/
def pageOffset (addr : UIntPtr) : UIntPtr := addr &&& (kPageSize - 1)

theorem toNat_pageOffset (a : UIntPtr) : (pageOffset a).toNat = a.toNat % 4096 := by
  have hmask : (kPageSize - 1).toNat = 2 ^ 12 - 1 := by decide
  rw [pageOffset, BitVec.toNat_and, hmask, Nat.and_two_pow_sub_one_eq_mod]

theorem pageStart_add_pageOffset (a : UIntPtr) : pageStart a + pageOffset a = a := by
  have hdisj : pageStart a &&& pageOffset a = 0#64 := by
    ext i hi
    simp only [pageStart, pageOffset, BitVec.getElem_and, BitVec.getElem_not, BitVec.getElem_zero]
    cases a[i] <;> cases (kPageSize - 1)[i] <;> rfl
  rw [BitVec.add_eq_or_of_and_eq_zero _ _ hdisj]
  ext i hi
  simp only [pageStart, pageOffset, BitVec.getElem_and, BitVec.getElem_not, BitVec.getElem_or]
  cases a[i] <;> cases (kPageSize - 1)[i] <;> rfl

private theorem toNat_pageStart (a : UIntPtr) : (pageStart a).toNat = a.toNat - a.toNat % 4096 := by
  have hsub : pageStart a = a - pageOffset a := by
    rw [eq_sub_iff_add_eq, pageStart_add_pageOffset]
  have hle : pageOffset a ≤ a := by
    rw [BitVec.le_def, toNat_pageOffset]
    exact Nat.mod_le _ _
  rw [hsub, BitVec.toNat_sub_of_le hle, toNat_pageOffset]

theorem pageStart_eq_iff (a b : UIntPtr) :
    pageStart a = pageStart b ↔ a.toNat - a.toNat % 4096 = b.toNat - b.toNat % 4096 := by
  rw [← toNat_pageStart, ← toNat_pageStart]
  exact BitVec.toNat_inj.symm

/-- Page and offset determine an address. -/
theorem eq_of_page_offset {a b : UIntPtr} (hp : pageStart a = pageStart b)
    (ho : (pageOffset a).toNat = (pageOffset b).toNat) : a = b := by
  rw [← pageStart_add_pageOffset a, ← pageStart_add_pageOffset b, hp, BitVec.toNat_inj.mp ho]

private theorem pageOffset_add_one {a : UIntPtr} (h : pageStart (a + 1) = pageStart a) :
    (pageOffset (a + 1)).toNat = (pageOffset a).toNat + 1 := by
  rw [pageStart_eq_iff] at h
  rw [toNat_pageOffset, toNat_pageOffset]
  have hadd : (a + 1).toNat = (a.toNat + 1) % 2 ^ 64 := by simp [BitVec.toNat_add]
  have := a.isLt
  omega

private theorem pageOffset_sub_one {a : UIntPtr} (h : pageStart (a - 1) = pageStart a) :
    (pageOffset (a - 1)).toNat + 1 = (pageOffset a).toNat := by
  have hback : a - 1 + 1 = a := sub_add_cancel a 1
  have := pageOffset_add_one (a := a - 1) (by rw [hback, h])
  rw [hback] at this
  exact this.symm

/-! ## The page map -/

/-- The shadow of one page. -/
abbrev ShadowPage (SymExpr : Type) := Fin 4096 → Option SymExpr

/-- `g_shadow_pages` -/
abbrev ShadowPages (SymExpr : Type) := Finmap fun _ : UIntPtr ↦ ShadowPage SymExpr

/-- `SymExpr *` into the shadow of `page`. -/
structure ShadowPtr where
  page : UIntPtr
  entry : ℤ

variable {SymExpr : Type}

namespace ShadowPage

def get (page : ShadowPage SymExpr) (i : ℤ) : Option SymExpr :=
  if h : i.toNat < 4096 ∧ 0 ≤ i then page ⟨i.toNat, h.1⟩ else none

def set (page : ShadowPage SymExpr) (i : ℤ) (v : Option SymExpr) : ShadowPage SymExpr :=
  if h : i.toNat < 4096 ∧ 0 ≤ i then Function.update page ⟨i.toNat, h.1⟩ v else page

private theorem get_set_self (page : ShadowPage SymExpr) {i : ℕ} (hi : i < 4096)
    (v : Option SymExpr) : (page.set i v).get i = v := by
  have h : ((i : ℤ).toNat < 4096 ∧ 0 ≤ (i : ℤ)) := by omega
  rw [get, dif_pos h, set, dif_pos h, Function.update_self]

private theorem get_set_of_ne (page : ShadowPage SymExpr) {i j : ℕ} (hij : j ≠ i)
    (v : Option SymExpr) : (page.set i v).get j = page.get j := by
  unfold get set
  split
  · split
    · rw [Function.update_of_ne]
      intro h
      have := Fin.mk.inj h
      omega
    · rfl
  · rfl

end ShadowPage

namespace ShadowPtr

/-- `*ptr` -/
def load (pages : ShadowPages SymExpr) (p : ShadowPtr) : Option SymExpr :=
  (pages.lookup p.page).elim none fun page ↦ ShadowPage.get page p.entry

/-- `*ptr = v` -/
def store (pages : ShadowPages SymExpr) (p : ShadowPtr) (v : Option SymExpr) :
    ShadowPages SymExpr :=
  (pages.lookup p.page).elim pages fun page ↦ pages.insert p.page (ShadowPage.set page p.entry v)

def succ (p : ShadowPtr) : ShadowPtr := { p with entry := p.entry + 1 }

def pred (p : ShadowPtr) : ShadowPtr := { p with entry := p.entry - 1 }

/-- The pointer to the entry of `a`, once `a`'s page has a shadow. -/
def ofAddress (a : UIntPtr) : ShadowPtr := ⟨pageStart a, (pageOffset a).toNat⟩

theorem succ_ofAddress {a : UIntPtr} (h : pageStart (a + 1) = pageStart a) :
    (ofAddress a).succ = ofAddress (a + 1) := by
  rw [ofAddress, ofAddress, succ, h, pageOffset_add_one h]
  rfl

theorem pred_ofAddress {a : UIntPtr} (h : pageStart (a - 1) = pageStart a) :
    (ofAddress a).pred = ofAddress (a - 1) := by
  rw [ofAddress, ofAddress, pred, h, ← pageOffset_sub_one h]
  simp

end ShadowPtr

/-- `ReadShadowIterator::getShadow` -/
def getShadow (pages : ShadowPages SymExpr) (address : UIntPtr) : Option ShadowPtr :=
  (pages.lookup (pageStart address)).map fun _ ↦ ⟨pageStart address, (pageOffset address).toNat⟩

/-- `WriteShadowIterator::getOrCreateShadow` -/
def getOrCreateShadow (pages : ShadowPages SymExpr) (address : UIntPtr) :
    ShadowPtr × ShadowPages SymExpr :=
  match getShadow pages address with
  | some shadow => (shadow, pages)
  | none =>
    (⟨pageStart address, (pageOffset address).toNat⟩,
      pages.insert (pageStart address) fun _ ↦ none)

/-- The shadow entry of an address; null when its page has no shadow. -/
def shadowAt (pages : ShadowPages SymExpr) (a : UIntPtr) : Option SymExpr :=
  (getShadow pages a).elim none fun p ↦ p.load pages

theorem getShadow_eq_none {pages : ShadowPages SymExpr} {a : UIntPtr} :
    getShadow pages a = none ↔ pages.lookup (pageStart a) = none := by
  rw [getShadow, Option.map_eq_none_iff]

theorem getShadow_eq_some {pages : ShadowPages SymExpr} {a : UIntPtr} {p : ShadowPtr} :
    getShadow pages a = some p ↔
      (pages.lookup (pageStart a)).isSome ∧ p = ShadowPtr.ofAddress a := by
  rw [getShadow, Option.map_eq_some_iff, Option.isSome_iff_exists]
  constructor
  · rintro ⟨page, hpage, rfl⟩
    exact ⟨⟨page, hpage⟩, rfl⟩
  · rintro ⟨⟨page, hpage⟩, rfl⟩
    exact ⟨page, hpage, rfl⟩

theorem load_ofAddress (pages : ShadowPages SymExpr) (a : UIntPtr) :
    (ShadowPtr.ofAddress a).load pages = shadowAt pages a := by
  rw [shadowAt, getShadow, ShadowPtr.load]
  cases h : pages.lookup (pageStart a) with
  | none => simp [ShadowPtr.ofAddress, h]
  | some page => simp [ShadowPtr.ofAddress, ShadowPtr.load, h]

theorem shadowAt_of_lookup_eq_none {pages : ShadowPages SymExpr} {a : UIntPtr}
    (h : pages.lookup (pageStart a) = none) : shadowAt pages a = none := by
  rw [shadowAt, getShadow_eq_none.mpr h, Option.elim_none]

theorem shadowAt_of_lookup_eq_some {pages : ShadowPages SymExpr} {a : UIntPtr}
    {page : ShadowPage SymExpr} (h : pages.lookup (pageStart a) = some page) :
    shadowAt pages a = page.get (pageOffset a).toNat := by
  rw [← load_ofAddress, ShadowPtr.load, ShadowPtr.ofAddress, h, Option.elim_some]

private theorem shadowAt_congr {pages pages' : ShadowPages SymExpr} {a : UIntPtr}
    (h : pages'.lookup (pageStart a) = pages.lookup (pageStart a)) :
    shadowAt pages' a = shadowAt pages a := by
  cases hl : pages.lookup (pageStart a) with
  | none => rw [shadowAt_of_lookup_eq_none (h.trans hl), shadowAt_of_lookup_eq_none hl]
  | some page => rw [shadowAt_of_lookup_eq_some (h.trans hl), shadowAt_of_lookup_eq_some hl]

/-- A page filled with null reads like a page without shadow. -/
theorem shadowAt_insert_null {pages : ShadowPages SymExpr} {p : UIntPtr}
    (h : pages.lookup p = none) : shadowAt (pages.insert p fun _ ↦ none) = shadowAt pages := by
  funext b
  by_cases hp : pageStart b = p
  · subst hp
    rw [shadowAt_of_lookup_eq_none h, shadowAt_of_lookup_eq_some (Finmap.lookup_insert pages),
      ShadowPage.get]
    split <;> rfl
  · exact shadowAt_congr (Finmap.lookup_insert_of_ne pages hp)

/-- Writing through the pointer to an entry changes that entry only. -/
theorem shadowAt_store {pages : ShadowPages SymExpr} {a : UIntPtr} (v : Option SymExpr)
    (h : (pages.lookup (pageStart a)).isSome) :
    shadowAt ((ShadowPtr.ofAddress a).store pages v) = Function.update (shadowAt pages) a v := by
  obtain ⟨page, hpage⟩ := Option.isSome_iff_exists.mp h
  have hstore : (ShadowPtr.ofAddress a).store pages v
      = pages.insert (pageStart a) (page.set (pageOffset a).toNat v) := by
    rw [ShadowPtr.store, ShadowPtr.ofAddress, hpage, Option.elim_some]
  have hlt : (pageOffset a).toNat < 4096 := by
    rw [toNat_pageOffset]
    exact Nat.mod_lt _ (by norm_num)
  rw [hstore]
  funext b
  by_cases hp : pageStart b = pageStart a
  -- on the same page, the entries are told apart by their positions
  · have hb : (pages.insert (pageStart a) (page.set (pageOffset a).toNat v)).lookup (pageStart b)
        = some (page.set (pageOffset a).toNat v) := by
      rw [hp, Finmap.lookup_insert]
    rw [shadowAt_of_lookup_eq_some hb]
    by_cases ho : (pageOffset b).toNat = (pageOffset a).toNat
    · rw [eq_of_page_offset hp ho, Function.update_self, ShadowPage.get_set_self page hlt]
    · rw [Function.update_of_ne (fun hba ↦ ho (by rw [hba])), ShadowPage.get_set_of_ne page ho,
        shadowAt_of_lookup_eq_some (hp ▸ hpage)]
  · rw [Function.update_of_ne (fun hba ↦ hp (by rw [hba]))]
    exact shadowAt_congr (Finmap.lookup_insert_of_ne pages hp)

/-! ## Adding pages -/

/-- Every page that has a shadow in `pages` has one in `pages'`. -/
def PagesLe (pages pages' : ShadowPages SymExpr) : Prop :=
  ∀ p, (pages.lookup p).isSome → (pages'.lookup p).isSome

theorem PagesLe.refl (pages : ShadowPages SymExpr) : PagesLe pages pages := fun _ h ↦ h

theorem PagesLe.trans {p₁ p₂ p₃ : ShadowPages SymExpr} (h : PagesLe p₁ p₂) (h' : PagesLe p₂ p₃) :
    PagesLe p₁ p₃ := fun p hp ↦ h' p (h p hp)

private theorem pagesLe_insert (pages : ShadowPages SymExpr) (p : UIntPtr)
    (page : ShadowPage SymExpr) : PagesLe pages (pages.insert p page) := by
  intro q hq
  by_cases hqp : q = p
  · rw [hqp, Finmap.lookup_insert]
    rfl
  · rwa [Finmap.lookup_insert_of_ne _ hqp]

private theorem pagesLe_store (pages : ShadowPages SymExpr) (p : ShadowPtr) (v : Option SymExpr) :
    PagesLe pages (p.store pages v) := by
  unfold ShadowPtr.store
  cases pages.lookup p.page with
  | none => exact PagesLe.refl pages
  | some page => exact pagesLe_insert pages _ _

/-- What creating a page on demand does: the address has an entry afterwards, no entry changes and
no page is lost. -/
theorem getOrCreateShadow_spec (pages : ShadowPages SymExpr) (a : UIntPtr) :
    (getOrCreateShadow pages a).1 = ShadowPtr.ofAddress a ∧
      ((getOrCreateShadow pages a).2.lookup (pageStart a)).isSome ∧
      shadowAt (getOrCreateShadow pages a).2 = shadowAt pages ∧
      PagesLe pages (getOrCreateShadow pages a).2 := by
  unfold getOrCreateShadow
  cases h : getShadow pages a with
  | some p =>
    obtain ⟨hsome, rfl⟩ := getShadow_eq_some.mp h
    exact ⟨rfl, hsome, rfl, PagesLe.refl pages⟩
  | none =>
    have hnone := getShadow_eq_none.mp h
    refine ⟨rfl, ?_, shadowAt_insert_null hnone, pagesLe_insert pages _ _⟩
    rw [Finmap.lookup_insert]
    rfl

/-! ## Iterators -/

/-- `ReadShadowIterator` -/
structure ReadShadowIterator where
  address_ : UIntPtr
  shadow_ : Option ShadowPtr

namespace ReadShadowIterator

/-- The constructor. -/
def mk' (pages : ShadowPages SymExpr) (address : UIntPtr) : ReadShadowIterator :=
  ⟨address, getShadow pages address⟩

/-- `operator++` -/
def next (pages : ShadowPages SymExpr) (it : ReadShadowIterator) : ReadShadowIterator :=
  if pageStart (it.address_ + 1) ≠ pageStart it.address_ then mk' pages (it.address_ + 1)
  else ⟨it.address_ + 1, it.shadow_.map ShadowPtr.succ⟩

/-- `operator--` -/
def prev (pages : ShadowPages SymExpr) (it : ReadShadowIterator) : ReadShadowIterator :=
  if pageStart (it.address_ - 1) ≠ pageStart it.address_ then mk' pages (it.address_ - 1)
  else ⟨it.address_ - 1, it.shadow_.map ShadowPtr.pred⟩

/-- `operator*` -/
def deref (pages : ShadowPages SymExpr) (it : ReadShadowIterator) : Option SymExpr :=
  it.shadow_.elim none fun shadow ↦ shadow.load pages

@[simp] theorem next_address (pages : ShadowPages SymExpr) (it : ReadShadowIterator) :
    (it.next pages).address_ = it.address_ + 1 := by
  unfold next
  split <;> rfl

@[simp] theorem prev_address (pages : ShadowPages SymExpr) (it : ReadShadowIterator) :
    (it.prev pages).address_ = it.address_ - 1 := by
  unfold prev
  split <;> rfl

/-- Where the pointer of a reading iterator is, in an operation that started with the pages `pre`
and has reached the pages `pages`. -/
structure Tracks (pre pages : ShadowPages SymExpr) (it : ReadShadowIterator) : Prop where
  /-- No page has been lost since the start. -/
  mono : PagesLe pre pages
  /-- A pointer is the one to the entry of the iterator's address. -/
  of_some : ∀ p, it.shadow_ = some p →
    p = ShadowPtr.ofAddress it.address_ ∧ (pages.lookup (pageStart it.address_)).isSome
  /-- A null pointer means that the page had no shadow at the start. -/
  of_none : it.shadow_ = none → pre.lookup (pageStart it.address_) = none

namespace Tracks

variable {pre pages : ShadowPages SymExpr} {it : ReadShadowIterator}

/-- An iterator made at any time during the operation. -/
theorem mk' (hmono : PagesLe pre pages) (address : UIntPtr) :
    Tracks pre pages (ReadShadowIterator.mk' pages address) where
  mono := hmono
  of_some p hp := by
    obtain ⟨hsome, rfl⟩ := getShadow_eq_some.mp hp
    exact ⟨rfl, hsome⟩
  of_none hn := by
    have hpages : pages.lookup (pageStart address) = none := getShadow_eq_none.mp hn
    by_contra hpre
    exact Option.isSome_iff_ne_none.mp (hmono _ (Option.isSome_iff_ne_none.mpr hpre)) hpages

/-- Pages may be added between two uses of an iterator. -/
theorem weaken {pages' : ShadowPages SymExpr} (h : Tracks pre pages it)
    (hle : PagesLe pages pages') : Tracks pre pages' it where
  mono := h.mono.trans hle
  of_some p hp := ⟨(h.of_some p hp).1, hle _ (h.of_some p hp).2⟩
  of_none := h.of_none

/-- An iterator that has moved by `step` keeps its pointer on the same page when the pointer moved
along. -/
private theorem move (h : Tracks pre pages it) {a : UIntPtr} {move : ShadowPtr → ShadowPtr}
    (hmove : move (ShadowPtr.ofAddress it.address_) = ShadowPtr.ofAddress a)
    (hpage : pageStart a = pageStart it.address_) :
    Tracks pre pages ⟨a, it.shadow_.map move⟩ where
  mono := h.mono
  of_some p hp := by
    obtain ⟨q, hq, rfl⟩ := Option.map_eq_some_iff.mp hp
    obtain ⟨rfl, hsome⟩ := h.of_some q hq
    exact ⟨hmove, hpage ▸ hsome⟩
  of_none hn := by
    rw [hpage]
    exact h.of_none (Option.map_eq_none_iff.mp hn)

theorem next (h : Tracks pre pages it) : Tracks pre pages (it.next pages) := by
  unfold ReadShadowIterator.next
  split
  · exact Tracks.mk' h.mono (it.address_ + 1)
  · next hsame =>
    have hsame := not_not.mp hsame
    exact h.move (ShadowPtr.succ_ofAddress hsame) hsame

theorem prev (h : Tracks pre pages it) : Tracks pre pages (it.prev pages) := by
  unfold ReadShadowIterator.prev
  split
  · exact Tracks.mk' h.mono (it.address_ - 1)
  · next hsame =>
    have hsame := not_not.mp hsame
    exact h.move (ShadowPtr.pred_ofAddress hsame) hsame

/-- Reading yields the entry from the start of the operation unless the operation itself has
overwritten it: a stale null pointer does no harm. -/
theorem deref_eq (h : Tracks pre pages it)
    (hsame : shadowAt pages it.address_ = shadowAt pre it.address_) :
    it.deref pages = shadowAt pre it.address_ := by
  unfold deref
  cases hs : it.shadow_ with
  | none => rw [Option.elim_none, shadowAt_of_lookup_eq_none (h.of_none hs)]
  | some p =>
    rw [Option.elim_some, (h.of_some p hs).1, load_ofAddress, hsame]

end Tracks

end ReadShadowIterator

/-- `WriteShadowIterator` -/
structure WriteShadowIterator where
  address_ : UIntPtr
  shadow_ : ShadowPtr

namespace WriteShadowIterator

/-- The constructor. -/
def mk' (pages : ShadowPages SymExpr) (address : UIntPtr) :
    WriteShadowIterator × ShadowPages SymExpr :=
  let (shadow_, pages) := getOrCreateShadow pages address
  (⟨address, shadow_⟩, pages)

/-- `operator++` -/
def next (pages : ShadowPages SymExpr) (it : WriteShadowIterator) :
    WriteShadowIterator × ShadowPages SymExpr :=
  if pageStart (it.address_ + 1) ≠ pageStart it.address_ then mk' pages (it.address_ + 1)
  else (⟨it.address_ + 1, it.shadow_.succ⟩, pages)

/-- `operator--` -/
def prev (pages : ShadowPages SymExpr) (it : WriteShadowIterator) :
    WriteShadowIterator × ShadowPages SymExpr :=
  if pageStart (it.address_ - 1) ≠ pageStart it.address_ then mk' pages (it.address_ - 1)
  else (⟨it.address_ - 1, it.shadow_.pred⟩, pages)

/-- `*it = v` -/
def assign (pages : ShadowPages SymExpr) (it : WriteShadowIterator) (v : Option SymExpr) :
    ShadowPages SymExpr :=
  it.shadow_.store pages v

/-- The pointer of a writing iterator is the one to the entry of its address. -/
structure Placed (pages : ShadowPages SymExpr) (it : WriteShadowIterator) : Prop where
  shadow_eq : it.shadow_ = ShadowPtr.ofAddress it.address_
  isSome : (pages.lookup (pageStart it.address_)).isSome

theorem Placed.weaken {pages pages' : ShadowPages SymExpr} {it : WriteShadowIterator}
    (h : Placed pages it) (hle : PagesLe pages pages') : Placed pages' it :=
  ⟨h.shadow_eq, hle _ h.isSome⟩

/-- A writing iterator at `a`, obtained from the pages `pages` without changing an entry. -/
structure Reached (pages : ShadowPages SymExpr) (a : UIntPtr)
    (r : WriteShadowIterator × ShadowPages SymExpr) : Prop where
  address_eq : r.1.address_ = a
  placed : r.1.Placed r.2
  shadowAt_eq : shadowAt r.2 = shadowAt pages
  pagesLe : PagesLe pages r.2

theorem reached_mk' (pages : ShadowPages SymExpr) (a : UIntPtr) :
    Reached pages a (mk' pages a) := by
  obtain ⟨hptr, hsome, hsame, hle⟩ := getOrCreateShadow_spec pages a
  exact ⟨rfl, ⟨hptr, hsome⟩, hsame, hle⟩

variable {pages : ShadowPages SymExpr} {it : WriteShadowIterator}

theorem Placed.next (h : Placed pages it) : Reached pages (it.address_ + 1) (it.next pages) := by
  unfold WriteShadowIterator.next
  split
  · exact reached_mk' pages _
  · next hsame =>
    have hsame := not_not.mp hsame
    refine ⟨rfl, ⟨?_, ?_⟩, rfl, PagesLe.refl pages⟩
    · exact (congrArg ShadowPtr.succ h.shadow_eq).trans (ShadowPtr.succ_ofAddress hsame)
    · exact hsame ▸ h.isSome

theorem Placed.prev (h : Placed pages it) : Reached pages (it.address_ - 1) (it.prev pages) := by
  unfold WriteShadowIterator.prev
  split
  · exact reached_mk' pages _
  · next hsame =>
    have hsame := not_not.mp hsame
    refine ⟨rfl, ⟨?_, ?_⟩, rfl, PagesLe.refl pages⟩
    · exact (congrArg ShadowPtr.pred h.shadow_eq).trans (ShadowPtr.pred_ofAddress hsame)
    · exact hsame ▸ h.isSome

theorem Placed.shadowAt_assign (h : Placed pages it) (v : Option SymExpr) :
    shadowAt (it.assign pages v) = Function.update (shadowAt pages) it.address_ v := by
  rw [assign, h.shadow_eq, shadowAt_store v h.isSome]

theorem pagesLe_assign (pages : ShadowPages SymExpr) (it : WriteShadowIterator)
    (v : Option SymExpr) : PagesLe pages (it.assign pages v) :=
  pagesLe_store pages it.shadow_ v

end WriteShadowIterator

end Adacc
