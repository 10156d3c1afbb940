import Adacc.SimpleBackend.InputBytes

/-!
# Asking a backend for input bytes

`Backend.symGetInputByte` is the expression for the byte of the input at an offset. What
`_sym_get_input_byte` returns when it is asked for that byte is another matter. The QSYM backend
makes a read of the offset, whatever it has been asked for before. The simple backend looks the
offset up in a vector (`InputBytes`), and returns a null pointer or the variable of another byte if
bytes have been skipped. So a caller that may skip bytes has to say which backend it is linked with;
`run_eq_iff` tells it when that makes no difference.
-/

namespace Adacc

/-- The backends, as far as `_sym_get_input_byte` is concerned. -/
inductive InputByteSource
  | qsym
  | simple
  deriving DecidableEq

/-- The offsets of `n` bytes from `offset` on. -/
def offsetsFrom (offset : SizeT) (n : ℕ) : List SizeT :=
  (List.range n).map fun i ↦ offset + BitVec.ofNat 64 i

private theorem offsetsFrom_succ (offset : SizeT) (n : ℕ) :
    offsetsFrom offset (n + 1) = offsetsFrom offset n ++ [offset + BitVec.ofNat 64 n] := by
  rw [offsetsFrom, List.range_succ, List.map_append, List.map_singleton, offsetsFrom]

namespace InputByteSource

variable {SymExpr : Type} [Backend SymExpr] (source : InputByteSource)

/-- `_sym_get_input_byte`, with the vector that the simple backend keeps. The variable that is named
after the number `n` is the expression for byte `n`. -/
def symGetInputByte (stdinBytes : List (Option SymExpr)) (offset : SizeT) :
    List (Option SymExpr) × Option SymExpr :=
  match source with
  | .qsym => (stdinBytes, some (Backend.symGetInputByte offset))
  | .simple =>
    InputBytes.lookup (fun n ↦ Backend.symGetInputByte (BitVec.ofNat 64 n)) stdinBytes offset

/-- The vector after `n` bytes from `offset` on have been asked for. -/
def bytesAfter (stdinBytes : List (Option SymExpr)) (offset : SizeT) (n : ℕ) :
    List (Option SymExpr) :=
  (Machine.run source.symGetInputByte stdinBytes (offsetsFrom offset n)).1

/-- What is returned for byte number `i` of these. -/
def byteFrom (stdinBytes : List (Option SymExpr)) (offset : SizeT) (i : ℕ) : Option SymExpr :=
  (source.symGetInputByte (source.bytesAfter stdinBytes offset i) (offset + BitVec.ofNat 64 i)).2

/-- With the simple backend, the bytes are asked for in order. -/
def InOrder (offsets : List SizeT) : Prop := source = .simple → InputBytes.InOrder offsets

variable {source}

theorem InOrder.of_append {offsets more : List SizeT} (h : source.InOrder (offsets ++ more)) :
    source.InOrder offsets :=
  fun hsimple ↦ (h hsimple).of_append

theorem inOrder_nil : source.InOrder [] := by
  rintro - init offset rest h
  exact absurd h.symm (List.append_ne_nil_of_right_ne_nil init (List.cons_ne_nil offset rest))

variable (source)

private theorem run_offsetsFrom (stdinBytes : List (Option SymExpr)) (offset : SizeT) (n : ℕ) :
    (Machine.run source.symGetInputByte stdinBytes (offsetsFrom offset n)).2
      = (List.range n).map (source.byteFrom stdinBytes offset) := by
  induction n with
  | zero => rfl
  | succ n ih =>
    rw [offsetsFrom_succ, Machine.run_concat, ih, List.range_succ, List.map_append,
      List.map_singleton]
    rfl

theorem bytesAfter_succ (stdinBytes : List (Option SymExpr)) (offset : SizeT) (n : ℕ) :
    source.bytesAfter stdinBytes offset (n + 1)
      = (source.symGetInputByte (source.bytesAfter stdinBytes offset n)
          (offset + BitVec.ofNat 64 n)).1 := by
  rw [bytesAfter, offsetsFrom_succ, Machine.run_concat]
  rfl

/-- The QSYM backend keeps nothing. -/
theorem run_qsym (stdinBytes : List (Option SymExpr)) (offsets : List SizeT) :
    Machine.run (symGetInputByte .qsym) stdinBytes offsets
      = (stdinBytes, offsets.map fun offset ↦ some (Backend.symGetInputByte offset)) := by
  induction offsets with
  | nil => rfl
  | cons offset offsets ih => rw [Machine.run_cons, symGetInputByte, ih, List.map_cons]

theorem byteFrom_qsym (stdinBytes : List (Option SymExpr)) (offset : SizeT) (i : ℕ) :
    byteFrom .qsym stdinBytes offset i
      = some (Backend.symGetInputByte (offset + BitVec.ofNat 64 i)) := rfl

theorem bytesAfter_qsym (stdinBytes : List (Option SymExpr)) (offset : SizeT) (n : ℕ) :
    bytesAfter .qsym stdinBytes offset n = stdinBytes := by
  rw [bytesAfter, run_qsym]

variable (SymExpr) in
private theorem symGetInputByte_ofNat_injOn :
    Set.InjOn (fun n ↦ (Backend.symGetInputByte (BitVec.ofNat 64 n) : SymExpr))
      (Set.Iio (2 ^ 64)) := by
  intro m hm n hn heq
  have hnat := congrArg BitVec.toNat (Backend.symGetInputByte_injective heq)
  rwa [BitVec.toNat_ofNat, BitVec.toNat_ofNat, Nat.mod_eq_of_lt hm, Nat.mod_eq_of_lt hn] at hnat

/-- After bytes have been asked for in order, more of them are right exactly if they are asked for
in order, too. -/
theorem run_eq_iff {asked : List SizeT} (h : source.InOrder asked) (more : List SizeT) :
    ((Machine.run source.symGetInputByte
        (Machine.run source.symGetInputByte ([] : List (Option SymExpr)) asked).1 more).2
          = more.map fun offset ↦ some (Backend.symGetInputByte offset)) ↔
      source.InOrder (asked ++ more) := by
  cases source with
  | qsym =>
    rw [run_qsym, run_qsym]
    exact iff_of_true rfl fun hsimple ↦ nomatch hsimple
  | simple =>
    have hexpr : ∀ offset : SizeT, Backend.symGetInputByte (BitVec.ofNat 64 offset.toNat)
        = (Backend.symGetInputByte offset : SymExpr) := fun offset ↦ by
      rw [BitVec.ofNat_toNat, BitVec.setWidth_eq]
    have hmore := InputBytes.more_results_eq_iff (symGetInputByte_ofNat_injOn SymExpr) (h rfl) more
    simp only [hexpr] at hmore
    exact hmore.trans ⟨fun horder _ ↦ horder, fun horder ↦ horder rfl⟩

variable {source} {stdinBytes : List (Option SymExpr)} {asked : List SizeT} {offset : SizeT} {n : ℕ}

/-- The vector after bytes have been asked for in order. -/
structure Asked (source : InputByteSource) (stdinBytes : List (Option SymExpr))
    (asked : List SizeT) : Prop where
  stdinBytes_eq : stdinBytes = (Machine.run source.symGetInputByte [] asked).1
  inOrder : source.InOrder asked

theorem asked_nil : Asked source ([] : List (Option SymExpr)) [] := ⟨rfl, inOrder_nil⟩

/-- The bytes from an offset on are right exactly if they are asked for in order. -/
theorem Asked.byteFrom_eq_iff (h : Asked source stdinBytes asked) :
    (∀ i < n, source.byteFrom stdinBytes offset i
        = some (Backend.symGetInputByte (offset + BitVec.ofNat 64 i))) ↔
      source.InOrder (asked ++ offsetsFrom offset n) := by
  have hrun : ((Machine.run source.symGetInputByte
      (Machine.run source.symGetInputByte ([] : List (Option SymExpr)) asked).1
        (offsetsFrom offset n)).2 = _) ↔ _ := source.run_eq_iff h.inOrder (offsetsFrom offset n)
  rw [← hrun, ← h.stdinBytes_eq, run_offsetsFrom, offsetsFrom, List.map_map, List.map_inj_left]
  simp only [List.mem_range, Function.comp_apply]

/-- The next byte has the expression of some byte. -/
theorem Asked.exists_byteFrom (h : Asked source stdinBytes asked) (offset : SizeT) :
    ∃ m, source.byteFrom stdinBytes offset 0 = some (Backend.symGetInputByte m) := by
  cases source with
  | qsym => exact ⟨_, rfl⟩
  | simple =>
    let make : ℕ → SymExpr := fun n ↦ Backend.symGetInputByte (BitVec.ofNat 64 n)
    have hspec : (∃ n, (Machine.run (InputBytes.lookup make) [] asked).1
        = InputBytes.firstMade make n ∧ InputBytes.Covers n asked) ∧ _ :=
      InputBytes.run_spec (h.inOrder rfl)
    obtain ⟨n, hvector, -⟩ := hspec.1
    have hbytes : stdinBytes = InputBytes.firstMade make n := h.stdinBytes_eq.trans hvector
    obtain ⟨m, hm⟩ := InputBytes.exists_lookup make n (offset + BitVec.ofNat 64 0)
    refine ⟨BitVec.ofNat 64 m, ?_⟩
    rw [hbytes]
    exact hm

/-- A character is right exactly if its byte is asked for in order. -/
theorem Asked.character_eq_iff (h : Asked source stdinBytes asked) (offset : SizeT)
    (bits : UInt8) :
    (source.byteFrom stdinBytes offset 0).map (Backend.symBuildZExt · bits)
        = some (Backend.symBuildZExt (Backend.symGetInputByte offset) bits) ↔
      source.InOrder (asked ++ offsetsFrom offset 1) := by
  obtain ⟨m, hm⟩ := h.exists_byteFrom offset
  rw [← h.byteFrom_eq_iff, hm, Option.map_some, Option.some.injEq]
  constructor
  · intro heq i hi
    obtain rfl : i = 0 := Nat.lt_one_iff.mp hi
    rw [hm, Backend.symBuildZExt_symGetInputByte_injective bits heq]
    exact congrArg (fun a ↦ some (Backend.symGetInputByte a)) (BitVec.add_zero offset).symm
  · intro hbyte
    have hfirst := hbyte 0 Nat.one_pos
    rw [hm, Option.some.injEq] at hfirst
    rw [hfirst]
    exact congrArg (fun a ↦ Backend.symBuildZExt (Backend.symGetInputByte a) bits)
      (BitVec.add_zero offset)

theorem Asked.more (h : Asked source stdinBytes asked)
    (horder : source.InOrder (asked ++ offsetsFrom offset n)) :
    Asked source (source.bytesAfter stdinBytes offset n) (asked ++ offsetsFrom offset n) := by
  refine ⟨?_, horder⟩
  rw [Machine.run_append, ← h.stdinBytes_eq]
  rfl

end InputByteSource

end Adacc
