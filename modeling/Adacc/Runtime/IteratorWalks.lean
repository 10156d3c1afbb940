import Adacc.Runtime.Shadow

/-!
# Walks of the shadow iterators

The loops of the runtime library move an iterator in one direction and stop at a known address.
Here an iterator is moved at will, up and down and across any number of pages, and is compared with
one that is made where the walk ends.

## The cached pointer

A reading iterator either moves its pointer along or looks its page up again, and keeps a null
pointer until it changes pages. While the set of shadowed pages stays as it is, all three agree
with a new lookup: whether the pointer is null depends on the page only, and a pointer that is not
null is the one to the entry of the address. So each step takes a fresh iterator to a fresh
iterator, with no condition on the way it went.

A writing iterator adds the pages it comes to. Its invariant has two parts, `Placed` for the pointer
and `Covers` for the pages: those it came by exist, new ones are filled with null, and all others
are as before. An address on a page that exists is passed without any effect, so the pages that a
walk has created depend only on the addresses it came by.
-/

namespace Adacc

variable {SymExpr : Type}

/-! ## Addresses -/

/-- The two steps of an iterator, `operator++` and `operator--`. -/
inductive IteratorStep
  | increment
  | decrement

/-- What a step does to the address. -/
def IteratorStep.move (address_ : UIntPtr) : IteratorStep → UIntPtr
  | .increment => address_ + 1
  | .decrement => address_ - 1

/-- The address where a walk ends. -/
def walkEnd (start : UIntPtr) (steps : List IteratorStep) : UIntPtr :=
  steps.foldl IteratorStep.move start

/-- The addresses a walk comes by, the first and the last one included. -/
def walkAddresses (start : UIntPtr) (steps : List IteratorStep) : List UIntPtr :=
  steps.inits.map (walkEnd start)

@[simp] theorem walkEnd_concat (start : UIntPtr) (steps : List IteratorStep) (s : IteratorStep) :
    walkEnd start (steps ++ [s]) = s.move (walkEnd start steps) := by
  rw [walkEnd, List.foldl_concat, walkEnd]

private theorem walkAddresses_concat (start : UIntPtr) (steps : List IteratorStep)
    (s : IteratorStep) : walkAddresses start (steps ++ [s])
      = walkAddresses start steps ++ [walkEnd start (steps ++ [s])] := by
  rw [walkAddresses, List.inits_append, List.map_append]
  rfl

/-! ## Reading -/

/-- The same pages have a shadow; their entries may differ. -/
def SamePages (pages pages' : ShadowPages SymExpr) : Prop :=
  ∀ p, (pages'.lookup p).isSome = (pages.lookup p).isSome

theorem SamePages.getShadow_eq {pages pages' : ShadowPages SymExpr} (h : SamePages pages pages')
    (a : UIntPtr) : getShadow pages' a = getShadow pages a := by
  have hpage := h (pageStart a)
  rw [getShadow, getShadow]
  cases h₁ : pages'.lookup (pageStart a) <;> cases h₂ : pages.lookup (pageStart a)
  · rfl
  · rw [h₁, h₂] at hpage
    contradiction
  · rw [h₁, h₂] at hpage
    contradiction
  · rfl

namespace ReadShadowIterator

theorem mk'_eq_of_samePages {pages pages' : ShadowPages SymExpr} (h : SamePages pages pages')
    (a : UIntPtr) : mk' pages' a = mk' pages a := by
  rw [mk', mk', h.getShadow_eq a]

/-- One step of a reading iterator, with the pages as they are at that time. -/
def step (pages : ShadowPages SymExpr) (it : ReadShadowIterator) :
    IteratorStep → ReadShadowIterator
  | .increment => it.next pages
  | .decrement => it.prev pages

/-- A walk of a reading iterator. Each step comes with the pages at its time: whoever holds a
writing iterator may have assigned to entries since the step before. -/
def walk (it : ReadShadowIterator) (steps : List (ShadowPages SymExpr × IteratorStep)) :
    ReadShadowIterator :=
  steps.foldl (fun it s ↦ it.step s.1 s.2) it

/-- A pointer that moves within its page ends where a lookup would put it. -/
theorem mk'_move {pages : ShadowPages SymExpr} {a b : UIntPtr} {move : ShadowPtr → ShadowPtr}
    (hmove : move (ShadowPtr.ofAddress a) = ShadowPtr.ofAddress b)
    (hpage : pageStart b = pageStart a) :
    (⟨b, (mk' pages a).shadow_.map move⟩ : ReadShadowIterator) = mk' pages b := by
  rw [mk', mk', getShadow, getShadow, hpage]
  cases pages.lookup (pageStart a) with
  | none => rfl
  | some page =>
    have hptr : move ⟨pageStart a, (pageOffset a).toNat⟩ = ⟨pageStart a, (pageOffset b).toNat⟩ := by
      rw [← hpage]
      exact (congrArg (fun p ↦ move ⟨p, (pageOffset a).toNat⟩) hpage).trans hmove
    rw [Option.map_some, Option.map_some, Option.map_some, hptr]

/-- A step takes a fresh iterator to a fresh iterator. -/
theorem step_mk' (pages : ShadowPages SymExpr) (a : UIntPtr) (s : IteratorStep) :
    (mk' pages a).step pages s = mk' pages (s.move a) := by
  cases s with
  | increment =>
    rw [step, next, IteratorStep.move]
    split
    · rfl
    · next hsame =>
      have hsame : pageStart (a + 1) = pageStart a := not_not.mp hsame
      exact mk'_move (ShadowPtr.succ_ofAddress hsame) hsame
  | decrement =>
    rw [step, prev, IteratorStep.move]
    split
    · rfl
    · next hsame =>
      have hsame : pageStart (a - 1) = pageStart a := not_not.mp hsame
      exact mk'_move (ShadowPtr.pred_ofAddress hsame) hsame

/-- Whatever way it went, the iterator is the one that would be made where it is. -/
theorem walk_mk' {pages : ShadowPages SymExpr} (start : UIntPtr)
    {steps : List (ShadowPages SymExpr × IteratorStep)} (h : ∀ s ∈ steps, SamePages pages s.1) :
    (mk' pages start).walk steps = mk' pages (walkEnd start (steps.map Prod.snd)) := by
  induction steps using List.reverseRecOn with
  | nil => rfl
  | append_singleton steps s ih =>
    rw [List.forall_mem_append, List.forall_mem_singleton] at h
    have hwalk := ih h.1
    rw [walk] at hwalk
    rw [walk, List.foldl_concat, hwalk, List.map_append, List.map_singleton, walkEnd_concat,
      ← mk'_eq_of_samePages h.2, step_mk', mk'_eq_of_samePages h.2]

end ReadShadowIterator

/-! ## Writing -/

namespace WriteShadowIterator

/-- One step of a writing iterator. -/
def step (r : WriteShadowIterator × ShadowPages SymExpr) :
    IteratorStep → WriteShadowIterator × ShadowPages SymExpr
  | .increment => r.1.next r.2
  | .decrement => r.1.prev r.2

/-- A walk of a writing iterator. -/
def walk (r : WriteShadowIterator × ShadowPages SymExpr) (steps : List IteratorStep) :
    WriteShadowIterator × ShadowPages SymExpr :=
  steps.foldl step r

private theorem walk_concat (r : WriteShadowIterator × ShadowPages SymExpr)
    (steps : List IteratorStep)
    (s : IteratorStep) : walk r (steps ++ [s]) = step (walk r steps) s :=
  List.foldl_concat ..

/-- The pages `pages` together with null pages for the addresses `as`, where they were missing. -/
def Covers (pages : ShadowPages SymExpr) (as : List UIntPtr) (pages' : ShadowPages SymExpr) :
    Prop :=
  (∀ p page, pages.lookup p = some page → pages'.lookup p = some page) ∧
    ∀ p, pages.lookup p = none →
      pages'.lookup p = if p ∈ as.map pageStart then some fun _ ↦ none else none

namespace Covers

variable {pages pages' : ShadowPages SymExpr} {as : List UIntPtr}

theorem refl (pages : ShadowPages SymExpr) : Covers pages [] pages :=
  ⟨fun _ _ h ↦ h, fun _ h ↦ h⟩

/-- An address on a page that exists makes no difference. -/
theorem concat_of_isSome (h : Covers pages as pages') {a : UIntPtr}
    (ha : (pages'.lookup (pageStart a)).isSome) : Covers pages (as ++ [a]) pages' := by
  refine ⟨h.1, fun p hp ↦ ?_⟩
  rw [h.2 p hp, List.map_append, List.map_singleton]
  by_cases hmem : p ∈ as.map pageStart
  · rw [if_pos hmem, if_pos (List.mem_append_left _ hmem)]
  · have hne : p ≠ pageStart a := by
      rintro rfl
      rw [h.2 _ hp, if_neg hmem] at ha
      contradiction
    rw [if_neg hmem, if_neg]
    exact fun hp' ↦ (List.mem_append.mp hp').elim hmem fun hp' ↦ hne (List.mem_singleton.mp hp')

/-- The page of an address is added when it is missing. -/
theorem concat (h : Covers pages as pages') (a : UIntPtr) :
    Covers pages (as ++ [a]) (getOrCreateShadow pages' a).2 := by
  unfold getOrCreateShadow
  cases hshadow : getShadow pages' a with
  | some p => exact h.concat_of_isSome (getShadow_eq_some.mp hshadow).1
  | none =>
    have hmissing : pages'.lookup (pageStart a) = none := getShadow_eq_none.mp hshadow
    constructor
    · intro p page hp
      have hne : p ≠ pageStart a := by
        rintro rfl
        rw [h.1 _ _ hp] at hmissing
        contradiction
      rw [Finmap.lookup_insert_of_ne _ hne, h.1 p page hp]
    · intro p hp
      rw [List.map_append, List.map_singleton]
      by_cases hpa : p = pageStart a
      · rw [if_pos (List.mem_append_right _ (List.mem_singleton.mpr hpa)), hpa,
          Finmap.lookup_insert]
      · rw [Finmap.lookup_insert_of_ne _ hpa, h.2 p hp]
        refine if_congr ?_ rfl rfl
        rw [List.mem_append, List.mem_singleton, or_iff_left hpa]

end Covers

/-- A step that does not change pages leaves them as they are; one that does makes an iterator. -/
theorem Covers.step {pages : ShadowPages SymExpr} {as : List UIntPtr}
    {r : WriteShadowIterator × ShadowPages SymExpr} (h : Covers pages as r.2)
    (hplaced : r.1.Placed r.2) (s : IteratorStep) :
    Covers pages (as ++ [s.move r.1.address_]) (WriteShadowIterator.step r s).2 := by
  cases s with
  | increment =>
    rw [WriteShadowIterator.step, next, IteratorStep.move]
    split
    · exact h.concat _
    · next hsame => exact h.concat_of_isSome (not_not.mp hsame ▸ hplaced.isSome)
  | decrement =>
    rw [WriteShadowIterator.step, prev, IteratorStep.move]
    split
    · exact h.concat _
    · next hsame => exact h.concat_of_isSome (not_not.mp hsame ▸ hplaced.isSome)

theorem Placed.step {r : WriteShadowIterator × ShadowPages SymExpr} (h : r.1.Placed r.2)
    (s : IteratorStep) : Reached r.2 (s.move r.1.address_) (WriteShadowIterator.step r s) := by
  cases s with
  | increment => exact h.next
  | decrement => exact h.prev

/-- Where a walk ends, and without a change of any entry. -/
theorem reached_walk (pages : ShadowPages SymExpr) (start : UIntPtr) (steps : List IteratorStep) :
    Reached pages (walkEnd start steps) (walk (mk' pages start) steps) := by
  induction steps using List.reverseRecOn with
  | nil => exact reached_mk' pages start
  | append_singleton steps s ih =>
    have hstep := ih.placed.step s
    rw [ih.address_eq, ← walkEnd_concat, ← walk_concat] at hstep
    exact ⟨hstep.address_eq, hstep.placed, hstep.shadowAt_eq.trans ih.shadowAt_eq,
      ih.pagesLe.trans hstep.pagesLe⟩

/-- The pages at the end of a walk are those of the beginning and those it came by. -/
theorem covers_walk (pages : ShadowPages SymExpr) (start : UIntPtr) (steps : List IteratorStep) :
    Covers pages (walkAddresses start steps) (walk (mk' pages start) steps).2 := by
  induction steps using List.reverseRecOn with
  | nil => exact (Covers.refl pages).concat start
  | append_singleton steps s ih =>
    have hreached := reached_walk pages start steps
    have hstep := ih.step hreached.placed s
    rwa [hreached.address_eq, ← walkEnd_concat, ← walkAddresses_concat, ← walk_concat] at hstep

end WriteShadowIterator

/-! ## Coherence -/

/-- While no page is added, a reading iterator yields what a fresh one yields, and that is the entry
of its address. A writing iterator refers to the entry of its address, has added null pages for
exactly the addresses it came by that had none, and has changed nothing else. -/
theorem shadowIterators_coherent {pages last : ShadowPages SymExpr} (start : UIntPtr)
    {reads : List (ShadowPages SymExpr × IteratorStep)}
    (hreads : ∀ s ∈ reads, SamePages pages s.1) (hlast : SamePages pages last)
    (writes : List IteratorStep) :
    (let a := walkEnd start (reads.map Prod.snd)
      let it := (ReadShadowIterator.mk' pages start).walk reads
      it.address_ = a ∧ it.deref last = (ReadShadowIterator.mk' last a).deref last ∧
        it.deref last = shadowAt last a) ∧
      (let a := walkEnd start writes
        let r := WriteShadowIterator.walk (WriteShadowIterator.mk' pages start) writes
        r.1.address_ = a ∧ r.1.shadow_ = ShadowPtr.ofAddress a ∧
          (r.2.lookup (pageStart a)).isSome ∧
          (∀ v, shadowAt (r.1.assign r.2 v) = Function.update (shadowAt r.2) a v) ∧
          (∀ p, pages.lookup p = none → r.2.lookup p
            = if p ∈ (walkAddresses start writes).map pageStart then some fun _ ↦ none else none) ∧
          (∀ p page, pages.lookup p = some page → r.2.lookup p = some page) ∧
          shadowAt r.2 = shadowAt pages) := by
  refine ⟨?_, ?_⟩
  · have hfresh := ReadShadowIterator.walk_mk' start hreads
    have hsame := ReadShadowIterator.mk'_eq_of_samePages hlast (walkEnd start (reads.map Prod.snd))
    have htracks := ReadShadowIterator.Tracks.mk' (PagesLe.refl last)
      (walkEnd start (reads.map Prod.snd))
    refine ⟨by rw [hfresh]; rfl, by rw [hfresh, hsame], ?_⟩
    rw [hfresh, ← hsame]
    exact htracks.deref_eq rfl
  · have hreached := WriteShadowIterator.reached_walk pages start writes
    have hcovers := WriteShadowIterator.covers_walk pages start writes
    refine ⟨hreached.address_eq, ?_, ?_, fun v ↦ ?_, hcovers.2, hcovers.1, hreached.shadowAt_eq⟩
    · rw [← hreached.address_eq]
      exact hreached.placed.shadow_eq
    · rw [← hreached.address_eq]
      exact hreached.placed.isSome
    · rw [← hreached.address_eq]
      exact hreached.placed.shadowAt_assign v

/-- Across the end of a page without shadow and back, after a byte of the first page has got another
expression. -/
theorem shadowIterators_coherent_there_and_back :
    let pages : ShadowPages ℕ := Finmap.singleton 0x1000 fun _ ↦ some 7
    let last : ShadowPages ℕ := Finmap.singleton 0x1000 fun _ ↦ some 8
    let reads : List (ShadowPages ℕ × IteratorStep) := [(pages, .increment), (last, .decrement)]
    ((ReadShadowIterator.mk' pages 0x1fff).walk reads).deref last = some 8 ∧
      ((WriteShadowIterator.walk (WriteShadowIterator.mk' pages 0x1fff)
        [.increment, .decrement]).2.lookup 0x2000).isSome := by
  intro pages last reads
  have hsame : SamePages pages last := by
    intro p
    by_cases hp : p = 0x1000
    · rw [hp]
      rfl
    · rw [Finmap.lookup_eq_none.mpr, Finmap.lookup_eq_none.mpr] <;>
        exact fun hmem ↦ hp ((Finmap.mem_singleton _ _ _).mp hmem)
  have hreads : ∀ s ∈ reads, SamePages pages s.1 :=
    List.forall_mem_cons.mpr ⟨fun _ ↦ rfl, List.forall_mem_singleton.mpr hsame⟩
  have hcoherent := shadowIterators_coherent 0x1fff hreads hsame [.increment, .decrement]
  refine ⟨?_, ?_⟩
  · have hend : walkEnd 0x1fff (reads.map Prod.snd) = 0x1fff := by decide
    have hget : ShadowPage.get (fun _ ↦ some 8) (pageOffset 0x1fff).toNat = some 8 := by decide
    rw [hcoherent.1.2.2, hend, shadowAt_of_lookup_eq_some rfl, hget]
  · rw [hcoherent.2.2.2.2.2.1 0x2000 rfl]
    decide

end Adacc
