import Adacc.Foundation.Machine
import Adacc.Foundation.TraverseOption
import Adacc.Runtime.PageEntries

/-!
# Garbage collection

`qsym_backend/Runtime.cpp`, `GarbageCollection.cpp`: the backend owns every expression that a
builder has returned in `allocatedExpressions`, and every use of an expression looks it up there
with `std::map::at`, which throws if it is missing. Once there are enough expressions,
`_sym_collect_garbage` drops those that are found neither in a registered region nor in shadow
memory. The slots for arguments and results are not searched.

A client keeps expressions in cells of registered regions and in the slots; a cell outside of the
registered regions holds none. What a client does in one go, such as passing the result of one
builder to the next, is one event, so that a collection never comes between.

The pointers that builders return are arbitrary (`create`): new ones, ones that have been freed, or
those of existing expressions. Of their meaning nothing is used. An exception is the end of the
program, `none`. `alive_iff` says that it cannot happen, and that nothing is held that has been
freed, exactly if at every collection everything in the slots is also held elsewhere.
-/

namespace Adacc

namespace GarbageCollection

/-! ## The expressions of the backend -/

/-- The keys of `allocatedExpressions`, and how often a builder has been called. -/
structure Heap (SymExpr : Type) where
  allocated : Finset SymExpr
  clock : ℕ

/-- A registered region: so many cells from the first one on. -/
structure Region where
  start : ℕ
  length : ℕ

/-- The cell lies in the region. -/
def Region.Contains (r : Region) (a : ℕ) : Prop := r.start ≤ a ∧ a < r.start + r.length

instance (r : Region) (a : ℕ) : Decidable (r.Contains a) := inferInstanceAs (Decidable (_ ∧ _))

/-- The cell lies in a registered region. -/
def Registered (regions : List Region) (a : ℕ) : Prop := ∃ r ∈ regions, r.Contains a

instance (regions : List Region) (a : ℕ) : Decidable (Registered regions a) :=
  inferInstanceAs (Decidable (∃ r ∈ regions, _))

/-- Where a client keeps an expression. -/
inductive Loc
  | cell (a : ℕ)
  | param (index : UInt8)
  | ret

/-- The backend, `expressionRegions`, the cells of the client, shadow memory and the slots. -/
structure State (SymExpr : Type) where
  heap : Heap SymExpr
  regions : List Region
  cells : ℕ → Option SymExpr
  pages : ShadowPages SymExpr
  slots : Slots SymExpr
  /-- Other cells hold no expressions. -/
  unregistered : ∀ a, ¬Registered regions a → cells a = none

/-- An operand of a builder: something the client keeps, or the result of an earlier call. -/
inductive Operand
  | held (loc : Loc)
  | result (i : ℕ)

/-- What a client does in one go. `build` calls builders one after the other and keeps the last
result; one that takes no expressions has no operands. -/
inductive Event
  | registerRegion (r : Region)
  | clear (dst : Loc)
  | move (src dst : Loc)
  | getReturnExpression (dst : Loc)
  | build (calls : List (List Operand)) (dst : Loc)
  | pushPathConstraint (src : Loc)
  | readMemory (addr : UIntPtr) (length : SizeT) (dst : Loc)
  | writeMemory (addr : UIntPtr) (length : SizeT) (src : Loc)
  | memset (memory : UIntPtr) (src : Loc) (length : SizeT)
  | memcpy (leftToRight : Bool) (dest src : UIntPtr) (length : SizeT)
  | memmove (leftToRight : Bool) (dest src : UIntPtr) (length : SizeT)
  | collectGarbage

variable {SymExpr : Type}

/-- When a program starts. -/
def State.init : State SymExpr := ⟨⟨∅, 0⟩, [], fun _ ↦ none, ∅, .init, fun _ _ ↦ rfl⟩

/-- The expression in a location. -/
def State.read (s : State SymExpr) : Loc → Option SymExpr
  | .cell a => s.cells a
  | .param index => s.slots.symGetParameterExpression index
  | .ret => s.slots.returnValue

/-- The expression that an operand is. -/
def State.operand (s : State SymExpr) (results : List SymExpr) : Operand → Option SymExpr
  | .held loc => s.read loc
  | .result i => results[i]?

/-- A location gets an expression. A client writes only to cells of registered regions. -/
def State.write (s : State SymExpr) (dst : Loc) (v : Option SymExpr) : State SymExpr :=
  match dst with
  | .cell a =>
    if h : Registered s.regions a then
      { s with
        cells := Function.update s.cells a v
        unregistered := fun b hb ↦ by
          have hne : b ≠ a := fun hba ↦ hb (hba ▸ h)
          rw [Function.update_of_ne hne, s.unregistered b hb] }
    else s
  | .param index => { s with slots := s.slots.symSetParameterExpression index v }
  | .ret => { s with slots := s.slots.symSetReturnExpression v }

/-- `_sym_register_expression_region` -/
def State.registerRegion (s : State SymExpr) (r : Region) : State SymExpr :=
  { s with
    regions := s.regions ++ [r]
    unregistered := fun a ha ↦ s.unregistered a fun ⟨r', hr', hcontains⟩ ↦
      ha ⟨r', List.mem_append_left _ hr', hcontains⟩ }

/-- `e` is in the set that `collectReachableExpressions` returns. -/
def State.Reachable (s : State SymExpr) (e : SymExpr) : Prop :=
  (∃ r ∈ s.regions, ∃ i < r.length, s.cells (r.start + i) = some e) ∨ InPages s.pages e

/-- `e` is in a slot. -/
def State.InSlots (s : State SymExpr) (e : SymExpr) : Prop :=
  s.slots.returnValue = some e ∨ ∃ index, s.slots.functionArguments index = some e

variable [DecidableEq SymExpr]

instance (s : State SymExpr) : DecidablePred s.Reachable := fun _ ↦
  inferInstanceAs (Decidable (_ ∨ _))

/-- `_sym_collect_garbage` -/
def State.collectGarbage (garbageCollectionThreshold : ℕ) (s : State SymExpr) : State SymExpr :=
  if s.heap.allocated.card < garbageCollectionThreshold then s
  else { s with heap := { s.heap with allocated := s.heap.allocated.filter s.Reachable } }

/-! ## Builders -/

section Builders

variable (create : ℕ → SymExpr)

/-- `registerExpression(g_expr_builder->create…(allocatedExpressions.at(args)…))` -/
def Heap.build (args : List SymExpr) (b : Heap SymExpr) : Option (SymExpr × Heap SymExpr) :=
  if ∀ e ∈ args, e ∈ b.allocated then
    some (create b.clock, ⟨insert (create b.clock) b.allocated, b.clock + 1⟩)
  else none

/-- Builders called one after the other, up to a call with a null operand. -/
def State.buildAll (s : State SymExpr) : List (List Operand) → List SymExpr → Heap SymExpr →
    Option (List SymExpr × Heap SymExpr)
  | [], results, b => some (results, b)
  | call :: calls, results, b =>
    match call.mapM (s.operand results) with
    | none => some (results, b)
    | some args =>
      (b.build create args).bind fun built ↦ s.buildAll calls (results ++ [built.1]) built.2

/-- One turn of the loop in `_sym_read_memory`, on the byte at `a`. -/
def readByte (pages : ShadowPages SymExpr) (acc : Option SymExpr × Heap SymExpr) (a : UIntPtr) :
    Option (Option SymExpr × Heap SymExpr) :=
  let byteExpr :=
    match shadowAt pages a with
    | some e => some (e, acc.2)
    | none => acc.2.build create []
  byteExpr.bind fun byteExpr ↦
    match acc.1 with
    | none => some (some byteExpr.1, byteExpr.2)
    | some result =>
      (byteExpr.2.build create [byteExpr.1, result]).map fun built ↦ (some built.1, built.2)

/-- `_sym_read_memory` -/
def readMemory (pages : ShadowPages SymExpr) (addr : UIntPtr) (length : SizeT) (b : Heap SymExpr) :
    Option (Option SymExpr × Heap SymExpr) :=
  if isConcrete pages addr length then some (none, b)
  else
    (List.range length.toNat).foldlM
      (fun acc i ↦ readByte create pages acc (addr + BitVec.ofNat 64 i)) (none, b)

/-- The extractions in `_sym_write_memory`. -/
def extractBytes (e : SymExpr) : ℕ → List SymExpr → Heap SymExpr →
    Option (List SymExpr × Heap SymExpr)
  | 0, bytes, b => some (bytes, b)
  | n + 1, bytes, b =>
    (b.build create [e]).bind fun built ↦ extractBytes e n (bytes ++ [built.1]) built.2

/-- `_sym_write_memory`. Without an expression it does what `_sym_memset` does. -/
def State.writeMemory (addr : UIntPtr) (length : SizeT) (expr : Option SymExpr)
    (s : State SymExpr) : Option (State SymExpr) :=
  match expr with
  | none => some { s with pages := symMemset addr none length s.pages }
  | some e =>
    (extractBytes create e length.toNat [] s.heap).map fun extracted ↦
      { s with
        heap := extracted.2
        pages := assignShadow (fun i ↦ extracted.1[i.toNat]?) addr length s.pages }

/-- An event; `none` is an exception. -/
def State.exec (garbageCollectionThreshold : ℕ) (s : State SymExpr) :
    Event → Option (State SymExpr)
  | .registerRegion r => some (s.registerRegion r)
  | .clear dst => some (s.write dst none)
  | .move src dst => some (s.write dst (s.read src))
  | .getReturnExpression dst =>
    let result := s.slots.symGetReturnExpression
    some ({ s with slots := result.2 }.write dst result.1)
  | .build calls dst =>
    (s.buildAll create calls [] s.heap).map fun built ↦
      { s with heap := built.2 }.write dst built.1.getLast?
  | .pushPathConstraint src =>
    match s.read src with
    | none => some s
    | some constraint => if constraint ∈ s.heap.allocated then some s else none
  | .readMemory addr length dst =>
    (readMemory create s.pages addr length s.heap).map fun result ↦
      { s with heap := result.2 }.write dst result.1
  | .writeMemory addr length src => s.writeMemory create addr length (s.read src)
  | .memset memory src length =>
    some { s with pages := symMemset memory (s.read src) length s.pages }
  | .memcpy leftToRight dest src length =>
    some { s with pages := symMemcpy leftToRight dest src length s.pages }
  | .memmove leftToRight dest src length =>
    some { s with pages := symMemmove leftToRight dest src length s.pages }
  | .collectGarbage => some (s.collectGarbage garbageCollectionThreshold)

/-- One step of a program, unless it has ended. The answer is the state afterwards. -/
def step (garbageCollectionThreshold : ℕ) (s : Option (State SymExpr)) (event : Event) :
    Option (State SymExpr) × Option (State SymExpr) :=
  let s' := s.bind fun s ↦ s.exec create garbageCollectionThreshold event
  (s', s')

end Builders

/-! ## What is held -/

omit [DecidableEq SymExpr] in
/-- Every expression that is held satisfies `P`. -/
structure State.Kept (s : State SymExpr) (P : SymExpr → Prop) : Prop where
  cells : ∀ a, NullOr P (s.cells a)
  pages : PagesIn P s.pages
  returnValue : NullOr P s.slots.returnValue
  functionArguments : ∀ index, NullOr P (s.slots.functionArguments index)

/-- Everything that is found in a registered region, in shadow memory or in a slot is a key of
`allocatedExpressions`. -/
def State.Alive (s : State SymExpr) : Prop :=
  ∀ e, s.Reachable e ∨ s.InSlots e → e ∈ s.heap.allocated

section Kept

omit [DecidableEq SymExpr]

variable {s : State SymExpr} {P Q : SymExpr → Prop}

theorem kept_iff : s.Kept P ↔ ∀ e, s.Reachable e ∨ s.InSlots e → P e := by
  constructor
  · rintro h e ((⟨r, -, i, -, hi⟩ | hpages) | (hret | ⟨index, hparam⟩))
    · exact h.cells _ e hi
    · exact pagesIn_iff.mp h.pages e hpages
    · exact h.returnValue e hret
    · exact h.functionArguments index e hparam
  · intro h
    refine ⟨fun a e ha ↦ ?_, pagesIn_iff.mpr fun e he ↦ h e (.inl (.inr he)),
      fun e he ↦ h e (.inr (.inl he)), fun index e he ↦ h e (.inr (.inr ⟨index, he⟩))⟩
    by_cases hreg : Registered s.regions a
    · obtain ⟨r, hr, hle, hlt⟩ := hreg
      refine h e (.inl (.inl ⟨r, hr, a - r.start, by omega, ?_⟩))
      rwa [Nat.add_sub_cancel' hle]
    · rw [s.unregistered a hreg] at ha
      cases ha

theorem State.Kept.mono (h : s.Kept P) (hPQ : ∀ e, P e → Q e) : s.Kept Q where
  cells a e he := hPQ e (h.cells a e he)
  pages p page hp i e he := hPQ e (h.pages p page hp i e he)
  returnValue e he := hPQ e (h.returnValue e he)
  functionArguments index e he := hPQ e (h.functionArguments index e he)

theorem State.Kept.read (h : s.Kept P) (loc : Loc) : NullOr P (s.read loc) := by
  cases loc with
  | cell a => exact h.cells a
  | param index => exact h.functionArguments index
  | ret => exact h.returnValue

private theorem nullOr_update {α : Type} [DecidableEq α] {f : α → Option SymExpr}
    (hf : ∀ a, NullOr P (f a)) (a : α) {v : Option SymExpr} (hv : NullOr P v) (b : α) :
    NullOr P (Function.update f a v b) := by
  by_cases hba : b = a
  · rwa [hba, Function.update_self]
  · rw [Function.update_of_ne hba]
    exact hf b

theorem State.Kept.write (h : s.Kept P) (dst : Loc) {v : Option SymExpr} (hv : NullOr P v) :
    (s.write dst v).Kept P := by
  cases dst with
  | cell a =>
    unfold State.write
    dsimp only
    split
    · exact ⟨nullOr_update h.cells a hv, h.pages, h.returnValue, h.functionArguments⟩
    · exact h
  | param index =>
    exact ⟨h.cells, h.pages, h.returnValue, nullOr_update h.functionArguments index hv⟩
  | ret => exact ⟨h.cells, h.pages, hv, h.functionArguments⟩

end Kept

omit [DecidableEq SymExpr] in
theorem State.heap_write (s : State SymExpr) (dst : Loc) (v : Option SymExpr) :
    (s.write dst v).heap = s.heap := by
  unfold State.write
  split
  · split <;> rfl
  · rfl
  · rfl

/-! ## One step -/

section Step

variable {s : State SymExpr} {b : Heap SymExpr}

/-- A builder whose operands are allocated returns an allocated expression, and nothing is lost. -/
theorem Heap.build_spec (create : ℕ → SymExpr) {args : List SymExpr}
    (h : ∀ e ∈ args, e ∈ b.allocated) :
    ∃ e b', b.build create args = some (e, b') ∧ e ∈ b'.allocated ∧ b.allocated ⊆ b'.allocated :=
  ⟨_, _, if_pos h, Finset.mem_insert_self _ _, Finset.subset_insert _ _⟩

private theorem buildAll_spec (create : ℕ → SymExpr) (hs : s.Kept (· ∈ b.allocated))
    (calls : List (List Operand)) {results : List SymExpr}
    (hresults : ∀ e ∈ results, e ∈ b.allocated) :
    ∃ results' b', s.buildAll create calls results b = some (results', b') ∧
      (∀ e ∈ results', e ∈ b'.allocated) ∧ b.allocated ⊆ b'.allocated := by
  induction calls generalizing results b with
  | nil => exact ⟨results, b, rfl, hresults, subset_rfl⟩
  | cons call calls ih =>
    unfold State.buildAll
    split
    · exact ⟨results, b, rfl, hresults, subset_rfl⟩
    · next args hargs =>
      have hmem : ∀ e ∈ args, e ∈ b.allocated := by
        intro e he
        obtain ⟨operand, -, hoperand⟩ := TraverseOption.exists_mem_of_mapM hargs he
        cases operand with
        | held loc => exact hs.read loc e hoperand
        | result i => exact hresults e (List.mem_of_getElem? hoperand)
      obtain ⟨e, b₁, hbuild, he, hle⟩ := Heap.build_spec create hmem
      have hresults₁ : ∀ e' ∈ results ++ [e], e' ∈ b₁.allocated :=
        List.forall_mem_append.mpr
          ⟨fun e' he' ↦ hle (hresults e' he'), List.forall_mem_singleton.mpr he⟩
      obtain ⟨results', b', hrest, hresults', hle'⟩ := ih (hs.mono fun e' he' ↦ hle he') hresults₁
      rw [hbuild, Option.bind_some]
      exact ⟨results', b', hrest, hresults', hle.trans hle'⟩

private theorem readByte_spec (create : ℕ → SymExpr) {pages : ShadowPages SymExpr}
    {result : Option SymExpr} (hpages : PagesIn (· ∈ b.allocated) pages)
    (hresult : NullOr (· ∈ b.allocated) result) (a : UIntPtr) :
    ∃ result' b', readByte create pages (result, b) a = some (result', b') ∧
      NullOr (· ∈ b'.allocated) result' ∧ b.allocated ⊆ b'.allocated := by
  have hbyte : ∃ e b', (match shadowAt pages a with
      | some e => some (e, b)
      | none => b.build create []) = some (e, b') ∧ e ∈ b'.allocated ∧
        b.allocated ⊆ b'.allocated := by
    cases ha : shadowAt pages a with
    | none => exact Heap.build_spec create fun e he ↦ absurd he List.not_mem_nil
    | some e => exact ⟨e, b, rfl, hpages.nullOr_shadowAt a e ha, subset_rfl⟩
  obtain ⟨byteExpr, b₁, hbyte, hmem, hle⟩ := hbyte
  unfold readByte
  dsimp only
  rw [hbyte, Option.bind_some]
  cases result with
  | none => exact ⟨_, _, rfl, fun e he ↦ Option.some.inj he ▸ hmem, hle⟩
  | some result =>
    have hargs : ∀ e ∈ [byteExpr, result], e ∈ b₁.allocated :=
      List.forall_mem_cons.mpr ⟨hmem, List.forall_mem_singleton.mpr (hle (hresult result rfl))⟩
    obtain ⟨e, b₂, hbuild, he, hle'⟩ := Heap.build_spec create hargs
    dsimp only
    rw [hbuild, Option.map_some]
    exact ⟨_, _, rfl, fun e' he' ↦ Option.some.inj he' ▸ he, hle.trans hle'⟩

private theorem readBytes_spec (create : ℕ → SymExpr) {pages : ShadowPages SymExpr} (addr : UIntPtr)
    (is : List ℕ) {result : Option SymExpr} (hpages : PagesIn (· ∈ b.allocated) pages)
    (hresult : NullOr (· ∈ b.allocated) result) :
    ∃ result' b', is.foldlM (fun acc i ↦ readByte create pages acc (addr + BitVec.ofNat 64 i))
        (result, b) = some (result', b') ∧
      NullOr (· ∈ b'.allocated) result' ∧ b.allocated ⊆ b'.allocated := by
  induction is generalizing result b with
  | nil => exact ⟨result, b, rfl, hresult, subset_rfl⟩
  | cons i is ih =>
    obtain ⟨result₁, b₁, hbyte, hresult₁, hle⟩ :=
      readByte_spec create hpages hresult (addr + BitVec.ofNat 64 i)
    obtain ⟨result', b', hrest, hresult', hle'⟩ :=
      ih (fun p page hp i e he ↦ hle (hpages p page hp i e he)) hresult₁
    rw [List.foldlM_cons, hbyte]
    exact ⟨result', b', hrest, hresult', hle.trans hle'⟩

private theorem readMemory_spec (create : ℕ → SymExpr) {pages : ShadowPages SymExpr}
    (hpages : PagesIn (· ∈ b.allocated) pages) (addr : UIntPtr) (length : SizeT) :
    ∃ result b', readMemory create pages addr length b = some (result, b') ∧
      NullOr (· ∈ b'.allocated) result ∧ b.allocated ⊆ b'.allocated := by
  unfold readMemory
  split
  · exact ⟨none, b, rfl, nullOr_none, subset_rfl⟩
  · exact readBytes_spec create addr _ hpages nullOr_none

private theorem extractBytes_spec (create : ℕ → SymExpr) {e : SymExpr} (he : e ∈ b.allocated)
    (n : ℕ) {bytes : List SymExpr} (hbytes : ∀ e ∈ bytes, e ∈ b.allocated) :
    ∃ bytes' b', extractBytes create e n bytes b = some (bytes', b') ∧
      (∀ e ∈ bytes', e ∈ b'.allocated) ∧ b.allocated ⊆ b'.allocated := by
  induction n generalizing bytes b with
  | zero => exact ⟨bytes, b, rfl, hbytes, subset_rfl⟩
  | succ n ih =>
    obtain ⟨byte, b₁, hbuild, hbyte, hle⟩ :=
      Heap.build_spec create (List.forall_mem_singleton.mpr he)
    have hbytes₁ : ∀ e' ∈ bytes ++ [byte], e' ∈ b₁.allocated :=
      List.forall_mem_append.mpr
        ⟨fun e' he' ↦ hle (hbytes e' he'), List.forall_mem_singleton.mpr hbyte⟩
    obtain ⟨bytes', b', hrest, hbytes', hle'⟩ := ih (hle he) hbytes₁
    rw [extractBytes, hbuild, Option.bind_some]
    exact ⟨bytes', b', hrest, hbytes', hle.trans hle'⟩

omit [DecidableEq SymExpr] in
theorem State.Alive.kept (h : s.Alive) : s.Kept (· ∈ s.heap.allocated) := kept_iff.mpr h

omit [DecidableEq SymExpr] in
/-- The heap grows and a location gets an allocated expression. -/
theorem State.Alive.write (h : s.Alive) {heap : Heap SymExpr}
    (hle : s.heap.allocated ⊆ heap.allocated) (dst : Loc) {v : Option SymExpr}
    (hv : NullOr (· ∈ heap.allocated) v) : ({ s with heap }.write dst v).Alive := by
  have hkept : State.Kept { s with heap } (· ∈ heap.allocated) :=
    ⟨fun a e he ↦ hle (h.kept.cells a e he),
      fun p page hp i e he ↦ hle (h.kept.pages p page hp i e he),
      fun e he ↦ hle (h.kept.returnValue e he),
      fun index e he ↦ hle (h.kept.functionArguments index e he)⟩
  have hwrite := hkept.write dst hv
  refine kept_iff.mp ?_
  rw [State.heap_write]
  exact hwrite

omit [DecidableEq SymExpr] in
/-- The heap grows and shadow memory changes. -/
theorem State.Alive.setPages (h : s.Alive) {heap : Heap SymExpr}
    (hle : s.heap.allocated ⊆ heap.allocated) {pages : ShadowPages SymExpr}
    (hpages : PagesIn (· ∈ heap.allocated) pages) : State.Alive { s with heap, pages } :=
  kept_iff.mp ⟨fun a e he ↦ hle (h.kept.cells a e he), hpages,
    fun e he ↦ hle (h.kept.returnValue e he),
    fun index e he ↦ hle (h.kept.functionArguments index e he)⟩

/-- Whatever a client does, apart from a collection. -/
theorem State.Alive.exec (create : ℕ → SymExpr) (garbageCollectionThreshold : ℕ) (h : s.Alive)
    {event : Event} (hevent : event ≠ .collectGarbage) :
    ∃ s', s.exec create garbageCollectionThreshold event = some s' ∧ s'.Alive := by
  have hkept := h.kept
  cases event with
  | registerRegion r =>
    exact ⟨_, rfl, kept_iff.mp ⟨hkept.cells, hkept.pages, hkept.returnValue,
      hkept.functionArguments⟩⟩
  | clear dst => exact ⟨_, rfl, h.write subset_rfl dst nullOr_none⟩
  | move src dst => exact ⟨_, rfl, h.write subset_rfl dst (hkept.read src)⟩
  | getReturnExpression dst =>
    have hempty : State.Alive { s with slots := s.slots.symGetReturnExpression.2 } :=
      kept_iff.mp ⟨hkept.cells, hkept.pages, nullOr_none, hkept.functionArguments⟩
    exact ⟨_, rfl, hempty.write subset_rfl dst hkept.returnValue⟩
  | build calls dst =>
    obtain ⟨results, heap, hbuild, hresults, hle⟩ :=
      buildAll_spec create hkept calls fun e he ↦ absurd he List.not_mem_nil
    refine ⟨_, by rw [State.exec, hbuild, Option.map_some], h.write hle dst fun e he ↦ ?_⟩
    exact hresults e (List.mem_of_getLast? he)
  | pushPathConstraint src =>
    cases hsrc : s.read src with
    | none => exact ⟨s, by rw [State.exec, hsrc], h⟩
    | some e => exact ⟨s, by rw [State.exec, hsrc]; exact if_pos (hkept.read src e hsrc), h⟩
  | readMemory addr length dst =>
    obtain ⟨result, heap, hread, hresult, hle⟩ := readMemory_spec create hkept.pages addr length
    exact ⟨_, by rw [State.exec, hread, Option.map_some], h.write hle dst hresult⟩
  | writeMemory addr length src =>
    rw [State.exec]
    cases hsrc : s.read src with
    | none =>
      exact ⟨_, rfl, h.setPages subset_rfl (hkept.pages.symMemset addr nullOr_none length)⟩
    | some e =>
      obtain ⟨bytes, heap, hextract, hbytes, hle⟩ := extractBytes_spec create
        (hkept.read src e hsrc) length.toNat fun e he ↦ absurd he List.not_mem_nil
      refine ⟨_, by rw [State.writeMemory, hextract, Option.map_some], h.setPages hle ?_⟩
      have hpages : PagesIn (· ∈ heap.allocated) s.pages :=
        fun p page hp i e he ↦ hle (hkept.pages p page hp i e he)
      exact hpages.assignShadow addr fun i _ e he ↦ hbytes e (List.mem_of_getElem? he)
  | memset memory src length =>
    exact ⟨_, rfl, h.setPages subset_rfl (hkept.pages.symMemset memory (hkept.read src) length)⟩
  | memcpy leftToRight dest src length =>
    exact ⟨_, rfl, h.setPages subset_rfl (hkept.pages.symMemcpy leftToRight dest src length)⟩
  | memmove leftToRight dest src length =>
    exact ⟨_, rfl, h.setPages subset_rfl (hkept.pages.symMemmove leftToRight dest src length)⟩
  | collectGarbage => exact absurd rfl hevent

/-- A collection frees nothing that is held exactly if it is not made or everything in the slots is
also held elsewhere. -/
theorem State.Alive.collectGarbage_iff (h : s.Alive) (garbageCollectionThreshold : ℕ) :
    (s.collectGarbage garbageCollectionThreshold).Alive ↔
      (garbageCollectionThreshold ≤ s.heap.allocated.card → ∀ e, s.InSlots e → s.Reachable e) := by
  unfold State.collectGarbage
  split
  · next hlt => exact iff_of_true h fun hle ↦ absurd hlt (Nat.not_lt.mpr hle)
  · next hle =>
    constructor
    · exact fun hafter _ e he ↦ (Finset.mem_filter.mp (hafter e (.inr he))).2
    · rintro hslots e (he | he)
      · exact Finset.mem_filter.mpr ⟨h e (.inl he), he⟩
      · exact Finset.mem_filter.mpr ⟨h e (.inr he), hslots (Nat.le_of_not_lt hle) e he⟩

end Step

/-! ## Runs -/

/-- If the event is a collection that is made, then everything in the slots is also in a registered
region or in shadow memory. -/
def SlotsReachable (garbageCollectionThreshold : ℕ) (s : Option (State SymExpr)) (event : Event) :
    Prop :=
  ∀ t, s = some t → event = .collectGarbage →
    garbageCollectionThreshold ≤ t.heap.allocated.card → ∀ e, t.InSlots e → t.Reachable e

/-- The program has not ended with an exception, and what is held is allocated. -/
def StillAlive (s : Option (State SymExpr)) : Prop := ∃ t, s = some t ∧ t.Alive

private theorem step_stillAlive_iff (create : ℕ → SymExpr) (garbageCollectionThreshold : ℕ)
    {s : Option (State SymExpr)} (h : StillAlive s) (event : Event) :
    StillAlive (step create garbageCollectionThreshold s event).2 ↔
      SlotsReachable garbageCollectionThreshold s event := by
  obtain ⟨s, rfl, h⟩ := h
  have hcond : SlotsReachable garbageCollectionThreshold (some s) event ↔
      (event = .collectGarbage → garbageCollectionThreshold ≤ s.heap.allocated.card →
        ∀ e, s.InSlots e → s.Reachable e) :=
    ⟨fun hs ↦ hs s rfl, fun hs t ht ↦ Option.some.inj ht ▸ hs⟩
  rw [hcond]
  by_cases hevent : event = .collectGarbage
  · subst hevent
    have hstep : (step create garbageCollectionThreshold (some s) .collectGarbage).2
        = some (s.collectGarbage garbageCollectionThreshold) := rfl
    have hiff := h.collectGarbage_iff garbageCollectionThreshold
    rw [hstep]
    constructor
    · rintro ⟨t, ht, halive⟩ -
      exact hiff.mp (Option.some.inj ht ▸ halive)
    · exact fun hslots ↦ ⟨_, rfl, hiff.mpr (hslots rfl)⟩
  · exact iff_of_true (h.exec create garbageCollectionThreshold hevent)
      fun hcollect ↦ absurd hcollect hevent

/-- In every run what is held stays allocated, and no exception is thrown, exactly if at every
collection everything in the slots is also held elsewhere. -/
theorem alive_iff (create : ℕ → SymExpr) (garbageCollectionThreshold : ℕ) (events : List Event) :
    (∀ s ∈ (Machine.run (step create garbageCollectionThreshold) (some .init) events).2,
        StillAlive s) ↔
      Machine.Along (step create garbageCollectionThreshold)
        (SlotsReachable garbageCollectionThreshold) (some .init) events := by
  have hstart : StillAlive (some (State.init : State SymExpr)) := by
    refine ⟨_, rfl, kept_iff.mp ⟨fun _ ↦ nullOr_none, fun p page hp ↦ ?_, nullOr_none,
      fun _ ↦ nullOr_none⟩⟩
    rw [State.init, Finmap.lookup_empty] at hp
    cases hp
  exact Machine.run_answers_iff (I := StillAlive) (R := fun _ ↦ True)
    (fun s event hs _ ↦ step_stillAlive_iff create garbageCollectionThreshold hs event)
    (fun _ _ _ _ hafter ↦ hafter) hstart fun _ _ ↦ trivial

/-- An argument is passed, and the next thing is a collection. -/
theorem not_alive :
    ¬ ∀ (create : ℕ → ℕ) (garbageCollectionThreshold : ℕ) (events : List Event),
      ∀ s ∈ (Machine.run (step create garbageCollectionThreshold) (some .init) events).2,
        StillAlive s := by
  intro h
  obtain ⟨t, ht, halive⟩ := h id 1 [.build [[]] (.param 0), .collectGarbage] _
    (List.mem_of_getElem? (i := 1) rfl)
  obtain rfl := Option.some.inj ht
  -- the argument is neither in a region nor in shadow memory
  have hreachable := (Finset.mem_filter.mp (halive 0 (.inr (.inr ⟨0, rfl⟩)))).2
  rcases hreachable with ⟨r, hr, -⟩ | ⟨p, hp, -⟩
  · exact absurd hr List.not_mem_nil
  · exact absurd (Finmap.mem_keys.mp hp) Finmap.notMem_empty

end GarbageCollection

end Adacc
