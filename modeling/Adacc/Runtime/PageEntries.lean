import Adacc.Runtime.RuntimeCommon
import Mathlib.Data.Finmap

/-!
# The entries of shadow pages

`collectReachableExpressions` finds the expressions in shadow memory by going through the entries of
all pages. `PagesIn P` says that all of them satisfy `P`. The functions of `RuntimeCommon.cpp` keep
this if what they store does; since they copy entries as they are, nothing else is needed, and it
does not matter whether ranges overlap or leave the address space.
-/

namespace Adacc

open ModularRange

namespace GarbageCollection

variable {SymExpr : Type}

/-- `e` is an entry of a shadow page. -/
def InPages (pages : ShadowPages SymExpr) (e : SymExpr) : Prop :=
  ∃ p ∈ pages.keys, ∃ i : Fin 4096, (pages.lookup p).elim none (· i) = some e

instance [DecidableEq SymExpr] (pages : ShadowPages SymExpr) (e : SymExpr) :
    Decidable (InPages pages e) :=
  inferInstanceAs (Decidable (∃ p ∈ pages.keys, _))

/-- Every entry of a shadow page satisfies `P`. -/
def PagesIn (P : SymExpr → Prop) (pages : ShadowPages SymExpr) : Prop :=
  ∀ p page, pages.lookup p = some page → ∀ i e, page i = some e → P e

theorem pagesIn_iff {P : SymExpr → Prop} {pages : ShadowPages SymExpr} :
    PagesIn P pages ↔ ∀ e, InPages pages e → P e := by
  constructor
  · rintro h e ⟨p, hp, i, hi⟩
    obtain ⟨page, hpage⟩ := Finmap.mem_iff.mp (Finmap.mem_keys.mp hp)
    rw [hpage, Option.elim_some] at hi
    exact h p page hpage i e hi
  · intro h p page hpage i e hi
    refine h e ⟨p, Finmap.mem_keys.mpr (Finmap.mem_iff.mpr ⟨page, hpage⟩), i, ?_⟩
    rwa [hpage, Option.elim_some]

/-- The value is null or satisfies `P`. -/
def NullOr (P : SymExpr → Prop) (v : Option SymExpr) : Prop := ∀ e, v = some e → P e

variable {P : SymExpr → Prop} {pages : ShadowPages SymExpr}

theorem nullOr_none : NullOr P none := fun _ he ↦ nomatch he

theorem nullOr_some {v : SymExpr} : NullOr P (some v) ↔ P v := by
  constructor
  · intro h
    exact h v rfl
  · rintro hv e he
    rwa [← Option.some.inj he]

theorem PagesIn.insert (h : PagesIn P pages) (p : UIntPtr) {page : ShadowPage SymExpr}
    (hpage : ∀ i, NullOr P (page i)) : PagesIn P (pages.insert p page) := by
  intro q page' hq i e he
  by_cases hqp : q = p
  · rw [hqp, Finmap.lookup_insert] at hq
    rw [← Option.some.inj hq] at he
    exact hpage i e he
  · rw [Finmap.lookup_insert_of_ne _ hqp] at hq
    exact h q page' hq i e he

theorem PagesIn.nullOr_get (h : PagesIn P pages) {p : UIntPtr} {page : ShadowPage SymExpr}
    (hp : pages.lookup p = some page) (i : ℤ) : NullOr P (page.get i) := by
  intro e he
  unfold ShadowPage.get at he
  split at he
  · exact h p page hp _ e he
  · cases he

/-- Reading yields an entry or null. -/
theorem PagesIn.nullOr_load (h : PagesIn P pages) (p : ShadowPtr) : NullOr P (p.load pages) := by
  unfold ShadowPtr.load
  cases hp : pages.lookup p.page with
  | none => exact nullOr_none
  | some page => exact h.nullOr_get hp p.entry

theorem PagesIn.nullOr_deref (h : PagesIn P pages) (it : ReadShadowIterator) :
    NullOr P (it.deref pages) := by
  unfold ReadShadowIterator.deref
  cases it.shadow_ with
  | none => exact nullOr_none
  | some p => exact h.nullOr_load p

theorem PagesIn.nullOr_shadowAt (h : PagesIn P pages) (a : UIntPtr) :
    NullOr P (shadowAt pages a) := by
  rw [← load_ofAddress]
  exact h.nullOr_load _

theorem PagesIn.store (h : PagesIn P pages) (p : ShadowPtr) {v : Option SymExpr}
    (hv : NullOr P v) : PagesIn P (p.store pages v) := by
  unfold ShadowPtr.store
  cases hp : pages.lookup p.page with
  | none => exact h
  | some page =>
    refine h.insert p.page fun i e he ↦ ?_
    unfold ShadowPage.set at he
    split at he
    · next hentry =>
      by_cases hi : i = ⟨p.entry.toNat, hentry.1⟩
      · rw [hi, Function.update_self] at he
        exact hv e he
      · rw [Function.update_of_ne hi] at he
        exact h p.page page hp i e he
    · exact h p.page page hp i e he

theorem PagesIn.mk' (h : PagesIn P pages) (a : UIntPtr) :
    PagesIn P (WriteShadowIterator.mk' pages a).2 := by
  unfold WriteShadowIterator.mk' getOrCreateShadow
  cases getShadow pages a with
  | some p => exact h
  | none => exact h.insert (pageStart a) fun _ ↦ nullOr_none

theorem PagesIn.next (h : PagesIn P pages) (it : WriteShadowIterator) :
    PagesIn P (it.next pages).2 := by
  unfold WriteShadowIterator.next
  split
  · exact h.mk' _
  · exact h

theorem PagesIn.prev (h : PagesIn P pages) (it : WriteShadowIterator) :
    PagesIn P (it.prev pages).2 := by
  unfold WriteShadowIterator.prev
  split
  · exact h.mk' _
  · exact h

theorem PagesIn.stdCopyLoop (h : PagesIn P pages) (last : ReadShadowIterator) (n : ℕ)
    (first : ReadShadowIterator) (result : WriteShadowIterator) :
    PagesIn P (stdCopyLoop last n first result pages) := by
  induction n generalizing first result pages with
  | zero => exact h
  | succ n ih =>
    unfold Adacc.stdCopyLoop
    split
    · exact h
    · exact ih ((h.store _ (h.nullOr_deref first)).next result) _ _

theorem PagesIn.stdCopyBackwardLoop (h : PagesIn P pages) (first : ReadShadowIterator) (n : ℕ)
    (last : ReadShadowIterator) (result : WriteShadowIterator) :
    PagesIn P (stdCopyBackwardLoop first n last result pages) := by
  induction n generalizing last result pages with
  | zero => exact h
  | succ n ih =>
    unfold Adacc.stdCopyBackwardLoop
    split
    · exact h
    · exact ih ((h.prev result).store _ (h.nullOr_deref _)) _ _

theorem PagesIn.assignLoop (h : PagesIn P pages) {f : SizeT → Option SymExpr} (n : ℕ) (i : SizeT)
    (hf : ∀ j < n, NullOr P (f (i + BitVec.ofNat 64 j))) (last first : WriteShadowIterator) :
    PagesIn P (assignLoop f last n i first pages) := by
  induction n generalizing i first pages with
  | zero => exact h
  | succ n ih =>
    unfold Adacc.assignLoop
    split
    · exact h
    · obtain ⟨hfirst, hlater⟩ := (forall_lt_succ_add_ofNat fun i ↦ NullOr P (f i)).mp hf
      exact ih ((h.store _ hfirst).next first) (i + 1) hlater _

theorem PagesIn.assignShadow (h : PagesIn P pages) {f : SizeT → Option SymExpr} (addr : UIntPtr)
    {length : SizeT} (hf : ∀ i < length.toNat, NullOr P (f (BitVec.ofNat 64 i))) :
    PagesIn P (assignShadow f addr length pages) := by
  have hsub : addr + length - addr = length := add_sub_cancel_left addr length
  unfold Adacc.assignShadow readWriteShadow forAssign
  dsimp only
  rw [(WriteShadowIterator.reached_mk' _ (addr + length)).address_eq,
    (WriteShadowIterator.reached_mk' pages addr).address_eq, hsub]
  refine ((h.mk' addr).mk' (addr + length)).assignLoop _ 0 (fun j hj ↦ ?_) _ _
  rw [zero_add]
  exact hf j hj

theorem PagesIn.symMemcpy (h : PagesIn P pages) (leftToRight : Bool) (dest src : UIntPtr)
    (length : SizeT) : PagesIn P (symMemcpy leftToRight dest src length pages) := by
  unfold Adacc.symMemcpy
  split
  · exact h
  · exact (h.mk' dest).stdCopyLoop _ _ _ _

theorem PagesIn.symMemmove (h : PagesIn P pages) (leftToRight : Bool) (dest src : UIntPtr)
    (length : SizeT) : PagesIn P (symMemmove leftToRight dest src length pages) := by
  unfold Adacc.symMemmove
  split
  · exact h
  split
  · exact (h.mk' (dest + length)).stdCopyBackwardLoop _ _ _ _
  · exact (h.mk' dest).stdCopyLoop _ _ _ _

theorem PagesIn.symMemset (h : PagesIn P pages) (memory : UIntPtr) {value : Option SymExpr}
    (hvalue : NullOr P value) (length : SizeT) :
    PagesIn P (symMemset memory value length pages) := by
  unfold Adacc.symMemset
  split
  · exact h
  · exact h.assignShadow memory fun _ _ ↦ hvalue

end GarbageCollection

end Adacc
