import Adacc.Runtime.MemoryEvents

/-!
# Freshly zeroed memory

What `calloc` and anonymous mappings hand out is zero, whatever the same addresses have held in
earlier lives. Shadow entries outlive the objects that they were made for: deallocation is not
intercepted, and the wrappers for the allocating functions leave shadow memory alone. So the block
is concrete exactly if its bytes happen to be, according to the whole history of the program
(`blocks_fresh_iff`). The wrappers that fill buffers clear the shadow of what they have not read
from the input.
-/

namespace Adacc

namespace FreshMemory

variable {SymExpr : Type} [Backend SymExpr]

/-- The state of the library, and what the program has written last to every byte. -/
structure History (SymExpr : Type) where
  lib : LibcState SymExpr
  written : FlatShadow SymExpr

/-- When the program starts. -/
def History.start (cfg : Config) : History SymExpr :=
  ⟨LibcState.init.initLibcWrappers cfg, fun _ ↦ none⟩

/-- One event. The answer is shadow memory after a block has been handed out, and the block. -/
def step (cfg : Config) (h : History SymExpr) (event : MemoryEvent SymExpr) :
    History SymExpr × Option (ShadowPages SymExpr × UIntPtr × SizeT) :=
  (⟨event.exec cfg h.lib, event.flat h.lib h.written⟩,
    event.block.map fun block ↦ ((event.exec cfg h.lib).pages, block))

/-- What a block should be when it is handed out: concrete, so that a load from any part of it
yields no expression, and has the value zero. -/
def Fresh (answer : ShadowPages SymExpr × UIntPtr × SizeT) : Prop :=
  let (pages, block, length) := answer
  isConcrete pages block length = true ∧
    ∀ (mem : UIntPtr → BitVec 8) (k m : SizeT) (littleEndian : Bool),
      k.toNat + m.toNat ≤ length.toNat →
        symReadMemory mem pages (block + k) m littleEndian = none

/-- What the program has written last to the bytes of the block that is handed out is concrete. -/
def WrittenConcrete (h : History SymExpr) (event : MemoryEvent SymExpr) : Prop :=
  ∀ block length, event.block = some (block, length) →
    ∀ i < length.toNat, h.written (block + BitVec.ofNat 64 i) = none

private theorem fresh_iff {pages : ShadowPages SymExpr} {block : UIntPtr} {length : SizeT}
    (hblock : IsObject block length) :
    Fresh (pages, block, length) ↔
      ∀ i < length.toNat, shadowAt pages (block + BitVec.ofNat 64 i) = none := by
  rw [Fresh, isConcrete_iff (hblock.fastPathSound pages)]
  refine and_iff_left_of_imp fun hnull mem k m littleEndian hpart ↦ ?_
  have hadd : (block + k).toNat = block.toNat + k.toNat := by
    rw [IsObject] at hblock
    rw [BitVec.toNat_add, Nat.mod_eq_of_lt (by omega)]
  have hpartObject : IsObject (block + k) m := by
    rw [IsObject] at hblock ⊢
    omega
  rw [← Option.isNone_iff_eq_none, isNone_symReadMemory,
    isConcrete_iff (hpartObject.fastPathSound _)]
  intro i hi
  have haddr : block + k + BitVec.ofNat 64 i = block + BitVec.ofNat 64 (k.toNat + i) := by
    rw [← ModularRange.add_ofNat_add, BitVec.ofNat_toNat, BitVec.setWidth_eq]
  rw [haddr]
  exact hnull (k.toNat + i) (by omega)

/-- Shadow memory is what the program has written. -/
def Recorded (h : History SymExpr) : Prop := shadowAt h.lib.pages = h.written

omit [Backend SymExpr] in
theorem recorded_start (cfg : Config) : Recorded (History.start cfg : History SymExpr) := by
  rw [Recorded, History.start, LibcState.pages_start]
  rfl

theorem Recorded.step {h : History SymExpr} (hrecorded : Recorded h) (cfg : Config)
    {event : MemoryEvent SymExpr} (hevent : event.IsProper) : Recorded (step cfg h event).1 := by
  rw [Recorded] at hrecorded ⊢
  rw [FreshMemory.step, ← hrecorded]
  exact MemoryEvent.shadowAt_exec cfg h.lib hevent

omit [Backend SymExpr] in
theorem isObject_of_block {event : MemoryEvent SymExpr} (hevent : event.IsProper) {block : UIntPtr}
    {length : SizeT} (hblock : event.block = some (block, length)) : IsObject block length := by
  cases event with
  | shadow call => cases hblock
  | libc params call => cases hblock
  | calloc params nmemb size a =>
    cases hblock
    exact hevent.2
  | mmap64 params len a =>
    cases hblock
    exact hevent

/-- The wrappers of the allocating functions leave shadow memory alone. -/
theorem flat_of_block {event : MemoryEvent SymExpr} {block : UIntPtr × SizeT}
    (hblock : event.block = some block) (s : LibcState SymExpr) (m : FlatShadow SymExpr) :
    event.flat s m = m := by
  cases event with
  | shadow call => cases hblock
  | libc params call => cases hblock
  | calloc params nmemb size a => rfl
  | mmap64 params len a => rfl

/-- One event hands out a fresh block exactly when what has been written there is concrete. -/
theorem step_iff (cfg : Config) {h : History SymExpr} (hrecorded : Recorded h)
    {event : MemoryEvent SymExpr} (hevent : event.IsProper) :
    (∀ answer, (step cfg h event).2 = some answer → Fresh answer) ↔ WrittenConcrete h event := by
  have hafter : shadowAt (event.exec cfg h.lib).pages = event.flat h.lib h.written :=
    hrecorded.step cfg hevent
  unfold WrittenConcrete
  rcases hblock : event.block with - | ⟨block, length⟩
  · rw [step, hblock]
    exact iff_of_true (fun answer h ↦ nomatch h) fun block length h ↦ nomatch h
  · rw [flat_of_block hblock] at hafter
    have hfresh : Fresh ((event.exec cfg h.lib).pages, block, length) ↔
        ∀ i < length.toNat, h.written (block + BitVec.ofNat 64 i) = none := by
      rw [fresh_iff (isObject_of_block hevent hblock), hafter]
    rw [step, hblock]
    constructor
    · rintro hanswer block' length' heq
      obtain ⟨rfl, rfl⟩ := Prod.ext_iff.mp (Option.some.inj heq)
      exact hfresh.mp (hanswer _ rfl)
    · rintro hwritten answer heq
      obtain rfl := Option.some.inj heq
      exact hfresh.mpr (hwritten block length rfl)

/-- In every history, all blocks are fresh when they are handed out exactly if, at every block, what
the program has written last to its bytes is concrete. -/
theorem blocks_fresh_iff (cfg : Config) (events : List (MemoryEvent SymExpr))
    (hevents : ∀ event ∈ events, event.IsProper) :
    (∀ o ∈ (Machine.run (step cfg) (History.start cfg) events).2,
        ∀ answer, o = some answer → Fresh answer) ↔
      Machine.Along (step cfg) WrittenConcrete (History.start cfg) events :=
  Machine.run_answers_iff (I := Recorded) (R := MemoryEvent.IsProper)
    (Q := fun o ↦ ∀ answer, o = some answer → Fresh answer)
    (fun _ _ hrecorded hevent ↦ step_iff cfg hrecorded hevent)
    (fun _ _ hrecorded hevent _ ↦ hrecorded.step cfg hevent) (recorded_start cfg) hevents

/-- A program that stores an input byte and then gets a block elsewhere. -/
def storeAndAllocate : List (MemoryEvent Z3Ast) :=
  [.shadow (.writeMemory 4096 1 (some (.var 0)) true), .calloc (fun _ ↦ none) 2 4 8192]

/-- The equivalence for that program. -/
theorem blocks_fresh_iff_storeAndAllocate :
    (∀ o ∈ (Machine.run (step standardInput) (History.start standardInput) storeAndAllocate).2,
        ∀ answer, o = some answer → Fresh answer) ↔
      Machine.Along (step standardInput) WrittenConcrete (History.start standardInput)
        storeAndAllocate :=
  blocks_fresh_iff standardInput storeAndAllocate (by
    intro event hevent
    rcases List.mem_cons.mp hevent with rfl | hevent
    · exact (by decide : IsObject 4096 1)
    · obtain rfl := List.mem_singleton.mp hevent
      exact (by decide : (2 : SizeT).toNat * (4 : SizeT).toNat < 2 ^ 64 ∧ IsObject 8192 (2 * 4)))

/-- A program that reads an input byte into a block, frees it, and gets it again from `calloc`. -/
def readAndReallocate : List (MemoryEvent Z3Ast) :=
  [.libc (fun _ ↦ none) (.read 0 4096 1 (some 1)), .calloc (fun _ ↦ none) 1 1 4096]

/-- It may do that, and gets a block that is not concrete. -/
theorem not_blocks_fresh :
    (∀ event ∈ readAndReallocate, event.IsProper) ∧
      ¬ ∀ o ∈ (Machine.run (step standardInput) (History.start standardInput)
          readAndReallocate).2, ∀ answer, o = some answer → Fresh answer := by
  constructor
  · simp only [readAndReallocate, List.forall_mem_cons]
    exact ⟨(by decide : IsObject 4096 1),
      (by decide : (1 : SizeT).toNat * (1 : SizeT).toNat < 2 ^ 64 ∧ IsObject 4096 (1 * 1)),
      List.forall_mem_nil _⟩
  · intro h
    have hblock := h _ (List.mem_cons_of_mem _ List.mem_cons_self) _ rfl
    have hconcrete := hblock.1
    revert hconcrete
    decide

end FreshMemory

end Adacc
