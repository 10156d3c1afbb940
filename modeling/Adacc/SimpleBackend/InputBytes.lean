import Adacc.Foundation.Machine
import Adacc.Foundation.TextFile
import Adacc.SimpleBackend.Builders

/-!
# The variables for input bytes

`_sym_get_input_byte` of the simple backend keeps the variables that it has made in a vector, by
offset. An offset beyond the end gets a new variable, and the vector is filled up with null pointers
to reach it. The new variable is named after the size that the vector had before, which is the
offset only if no filling was needed; and the null pointers are what later calls for the offsets in
between return.

So everything is right as long as the first calls for the offsets come in the order of the offsets
(`InOrder`), as they do when the input is read from its beginning without skipping any of it. Then
the vector has exactly the variables of the offsets so far (`run_spec`), and numbering them by their
offsets, as `Z3Ast.symGetInputByte` does, is right. `results_eq_iff` says that it is right in no
other case.

The vector behaves in the same way whatever is kept in it, so the results are about `lookup`, where
`make n` is what is made when the vector has the size `n`.
-/

namespace Adacc.InputBytes

open TextFile

/-- A Z3 constant. Those of one name and one sort are the same. -/
structure Variable where
  name : List Char
  bits : UInt8
  deriving DecidableEq

/-- `build_variable` -/
def buildVariable (name : List Char) (bits : UInt8) : Variable := ⟨name, bits⟩

/-- `"stdin" + std::to_string(n)` -/
def varName (n : ℕ) : List Char := ['s', 't', 'd', 'i', 'n'] ++ decimal n

/-- `_sym_get_input_byte`, with the vector `stdinBytes`. -/
def symGetInputByte (stdinBytes : List (Option Variable)) (offset : SizeT) :
    List (Option Variable) × Option Variable :=
  match stdinBytes[offset.toNat]? with
  | some byte => (stdinBytes, byte)
  | none =>
    let var := buildVariable (varName stdinBytes.length) 8
    (stdinBytes ++ List.replicate (offset.toNat - stdinBytes.length) none ++ [some var], some var)

/-- The results of a sequence of calls. -/
def results (offsets : List SizeT) : List (Option Variable) :=
  (Machine.run symGetInputByte [] offsets).2

/-- What a sequence of calls should return: variables of eight bits, the same for the same offset,
and each with the name of its offset. -/
structure DistinctVariables (offsets : List SizeT) : Prop where
  nonnull : ∀ byte ∈ results offsets, ∃ var, byte = some var ∧ var.bits = 8
  distinct : ∀ i < offsets.length, ∀ j < offsets.length,
    (results offsets)[i]? = (results offsets)[j]? ↔ offsets[i]? = offsets[j]?
  named : ∀ (i : ℕ) (offset : SizeT) (var : Variable), offsets[i]? = some offset →
    (results offsets)[i]? = some (some var) → var.name = varName offset.toNat

/-- An offset is asked for only after all smaller ones. -/
def InOrder (offsets : List SizeT) : Prop :=
  ∀ init offset rest, offsets = init ++ offset :: rest →
    ∀ m < offset.toNat, ∃ earlier ∈ init, earlier.toNat = m

/-! ## The vector -/

section Vector

variable {α : Type*} (make : ℕ → α)

/-- Looking up an offset, with a new element beyond the end of the vector. -/
def lookup (vector : List (Option α)) (offset : SizeT) : List (Option α) × Option α :=
  match vector[offset.toNat]? with
  | some byte => (vector, byte)
  | none =>
    let made := make vector.length
    (vector ++ List.replicate (offset.toNat - vector.length) none ++ [some made], some made)

/-- The vector with the elements of the offsets below `n`. -/
def firstMade (n : ℕ) : List (Option α) := (List.range n).map fun i ↦ some (make i)

private theorem length_firstMade (n : ℕ) : (firstMade make n).length = n := by
  rw [firstMade, List.length_map, List.length_range]

private theorem firstMade_succ (n : ℕ) : firstMade make (n + 1) = firstMade make n ++
    [some (make n)] := by
  rw [firstMade, List.range_succ, List.map_append, List.map_singleton, firstMade]

private theorem firstMade_getElem? {n i : ℕ} (h : i < n) : (firstMade make n)[i]? = some
    (some (make i)) := by
  rw [firstMade, List.getElem?_map, List.getElem?_range h, Option.map_some]

/-- The element of an earlier offset is found. -/
theorem lookup_of_lt {n : ℕ} {offset : SizeT} (h : offset.toNat < n) :
    lookup make (firstMade make n) offset = (firstMade make n, some (make offset.toNat)) := by
  rw [lookup, firstMade_getElem? make h]

/-- Any other offset gets the element of the next one. -/
theorem lookup_of_le {n : ℕ} {offset : SizeT} (h : n ≤ offset.toNat) :
    lookup make (firstMade make n) offset
      = (firstMade make n ++ List.replicate (offset.toNat - n) none ++ [some (make n)],
          some (make n)) := by
  have hnone : (firstMade make n)[offset.toNat]? = none := by
    rw [List.getElem?_eq_none_iff, length_firstMade]
    exact h
  rw [lookup, hnone, length_firstMade]

/-- The next offset leaves no gap. -/
theorem lookup_of_eq {n : ℕ} {offset : SizeT} (h : offset.toNat = n) :
    lookup make (firstMade make n) offset = (firstMade make (n + 1), some (make n)) := by
  rw [lookup_of_le make (Nat.le_of_eq h.symm), h, Nat.sub_self, List.replicate_zero,
    List.append_nil, firstMade_succ]

/-- Nothing is returned but elements. -/
theorem exists_lookup (n : ℕ) (offset : SizeT) :
    ∃ m, (lookup make (firstMade make n) offset).2 = some (make m) := by
  rcases Nat.lt_or_ge offset.toNat n with hlt | hge
  · exact ⟨_, congrArg Prod.snd (lookup_of_lt make hlt)⟩
  · exact ⟨_, congrArg Prod.snd (lookup_of_le make hge)⟩

variable {make}

/-- If elements for different sizes differ, the result is right exactly when there is no gap. -/
theorem lookup_eq_iff (hmake : Set.InjOn make (Set.Iio (2 ^ 64))) {n : ℕ} {offset : SizeT} :
    (lookup make (firstMade make n) offset).2 = some (make offset.toNat) ↔ offset.toNat ≤ n := by
  rcases Nat.lt_or_ge offset.toNat n with hlt | hge
  · rw [lookup_of_lt make hlt]
    exact iff_of_true rfl hlt.le
  · have hoffset : offset.toNat < 2 ^ 64 := offset.isLt
    rw [lookup_of_le make hge, Option.some.injEq, hmake.eq_iff (hge.trans_lt hoffset) hoffset]
    omega

/-! ## Runs -/

/-- The vector of the offsets so far. -/
def Covers (n : ℕ) (offsets : List SizeT) : Prop :=
  ∀ m, m < n ↔ ∃ offset ∈ offsets, offset.toNat = m

theorem Covers.append_lt {n : ℕ} {offsets : List SizeT} {offset : SizeT} (h : Covers n offsets)
    (hlt : offset.toNat < n) : Covers n (offsets ++ [offset]) := by
  intro m
  rw [h m]
  constructor
  · rintro ⟨earlier, hmem, hm⟩
    exact ⟨earlier, List.mem_append_left _ hmem, hm⟩
  · rintro ⟨earlier, hmem, rfl⟩
    rw [List.mem_append, List.mem_singleton] at hmem
    rcases hmem with hmem | rfl
    · exact ⟨earlier, hmem, rfl⟩
    · exact (h _).mp hlt

theorem Covers.append_eq {n : ℕ} {offsets : List SizeT} {offset : SizeT} (h : Covers n offsets)
    (heq : offset.toNat = n) : Covers (n + 1) (offsets ++ [offset]) := by
  intro m
  rw [Nat.lt_succ_iff_lt_or_eq, h m]
  constructor
  · rintro (⟨earlier, hmem, hm⟩ | rfl)
    · exact ⟨earlier, List.mem_append_left _ hmem, hm⟩
    · exact ⟨offset, List.mem_append_right _ (List.mem_singleton_self offset), heq⟩
  · rintro ⟨earlier, hmem, hm⟩
    rw [List.mem_append, List.mem_singleton] at hmem
    rcases hmem with hmem | rfl
    · exact .inl ⟨earlier, hmem, hm⟩
    · exact .inr (hm.symm.trans heq)

/-- All smaller offsets have been asked for when there is no gap. -/
theorem Covers.le_iff {n : ℕ} {offsets : List SizeT} (h : Covers n offsets) (offset : SizeT) :
    offset.toNat ≤ n ↔ ∀ m < offset.toNat, ∃ earlier ∈ offsets, earlier.toNat = m := by
  constructor
  · intro hle m hm
    exact (h m).mp (hm.trans_le hle)
  · intro hall
    by_contra hlt
    have hn := (h n).mpr (hall n (Nat.lt_of_not_le hlt))
    exact absurd hn (Nat.lt_irrefl n)

theorem InOrder.of_append {offsets more : List SizeT} (h : InOrder (offsets ++ more)) :
    InOrder offsets := by
  rintro init offset rest rfl
  exact h init offset (rest ++ more) (by rw [List.append_assoc, List.cons_append])

private theorem inOrder_concat (offsets : List SizeT) (offset : SizeT) :
    InOrder (offsets ++ [offset]) ↔ InOrder offsets ∧
      ∀ m < offset.toNat, ∃ earlier ∈ offsets, earlier.toNat = m := by
  constructor
  · exact fun h ↦ ⟨h.of_append, h offsets offset [] rfl⟩
  · rintro ⟨hinit, hlast⟩ init next rest heq
    rcases List.eq_nil_or_concat rest with rfl | ⟨rest, last, rfl⟩
    · obtain ⟨rfl, hsingle⟩ := List.append_inj' heq rfl
      obtain rfl : offset = next := List.singleton_inj.mp hsingle
      exact hlast
    · rw [List.concat_eq_append, ← List.cons_append, ← List.append_assoc] at heq
      obtain ⟨rfl, -⟩ := List.append_inj' heq rfl
      exact hinit init next rest rfl

/-- Calls in the order of the offsets leave the elements of the offsets so far, and return those of
their offsets. -/
theorem run_spec {offsets : List SizeT} (h : InOrder offsets) :
    (∃ n, (Machine.run (lookup make) [] offsets).1 = firstMade make n ∧ Covers n offsets) ∧
      (Machine.run (lookup make) [] offsets).2
        = offsets.map fun offset ↦ some (make offset.toNat) := by
  induction offsets using List.reverseRecOn with
  | nil =>
    refine ⟨⟨0, rfl, fun m ↦ ?_⟩, rfl⟩
    simp
  | append_singleton offsets offset ih =>
    rw [inOrder_concat] at h
    obtain ⟨⟨n, hstate, hcovers⟩, hresults⟩ := ih h.1
    have hle := (hcovers.le_iff offset).mpr h.2
    rw [Machine.run_concat, hstate, hresults, List.map_append, List.map_singleton]
    rcases Nat.lt_or_eq_of_le hle with hlt | heq
    · rw [lookup_of_lt make hlt]
      exact ⟨⟨n, rfl, hcovers.append_lt hlt⟩, rfl⟩
    · rw [lookup_of_eq make heq, heq]
      exact ⟨⟨n + 1, rfl, hcovers.append_eq heq⟩, rfl⟩

/-- If elements for different sizes differ, the results are right exactly when the calls come in
order. -/
theorem results_eq_iff (hmake : Set.InjOn make (Set.Iio (2 ^ 64))) (offsets : List SizeT) :
    ((Machine.run (lookup make) [] offsets).2 = offsets.map fun offset ↦ some (make offset.toNat)) ↔
      InOrder offsets := by
  refine ⟨fun h ↦ ?_, fun h ↦ (run_spec h).2⟩
  induction offsets using List.reverseRecOn with
  | nil =>
    rintro init offset rest heq
    exact absurd heq.symm (List.append_ne_nil_of_right_ne_nil _ (List.cons_ne_nil _ _))
  | append_singleton offsets offset ih =>
    rw [Machine.run_concat, List.map_append, List.map_singleton] at h
    obtain ⟨hinit, hlast⟩ := List.append_inj' h rfl
    have horder := ih hinit
    have hspec : (∃ n, (Machine.run (lookup make) [] offsets).1 = firstMade make n ∧
        Covers n offsets) ∧ _ := run_spec horder
    obtain ⟨⟨n, hstate, hcovers⟩, -⟩ := hspec
    rw [hstate, List.singleton_inj, lookup_eq_iff hmake, hcovers.le_iff] at hlast
    exact (inOrder_concat offsets offset).mpr ⟨horder, hlast⟩

/-- More calls after calls in order. -/
theorem more_results_eq_iff (hmake : Set.InjOn make (Set.Iio (2 ^ 64))) {offsets : List SizeT}
    (h : InOrder offsets) (more : List SizeT) :
    ((Machine.run (lookup make) (Machine.run (lookup make) [] offsets).1 more).2
        = more.map fun offset ↦ some (make offset.toNat)) ↔ InOrder (offsets ++ more) := by
  rw [← results_eq_iff hmake, Machine.run_append, List.map_append, (run_spec h).2,
    List.append_cancel_left_eq]

end Vector

/-! ## The variables -/

/-- The variable for the byte at an offset. -/
def inputVariable (n : ℕ) : Variable := ⟨varName n, 8⟩

private theorem varName_injective : Function.Injective varName := by
  intro m n h
  have hdigits : decimal m = decimal n := List.append_cancel_left h
  rw [← Nat.ofDigitChars_ten_toDigits (n := m), ← Nat.ofDigitChars_ten_toDigits (n := n)]
  exact congrArg (Nat.ofDigitChars 10 · 0) hdigits

private theorem inputVariable_injective : Function.Injective inputVariable :=
  fun _ _ h ↦ varName_injective (Variable.mk.inj h).1

private theorem symGetInputByte_eq : symGetInputByte = lookup inputVariable := by
  funext stdinBytes offset
  unfold symGetInputByte lookup
  split
  · next byte h => rw [h]
  · next h => rw [h]; rfl

theorem results_eq (offsets : List SizeT) :
    results offsets = (Machine.run (lookup inputVariable) [] offsets).2 := by
  rw [results, symGetInputByte_eq]

private theorem length_results (offsets : List SizeT) : (results offsets).length = offsets.length :=
  Machine.length_run_answers symGetInputByte [] offsets

/-- Names and widths leave no choice. -/
theorem DistinctVariables.results_eq {offsets : List SizeT} (h : DistinctVariables offsets) :
    results offsets = offsets.map fun offset ↦ some (inputVariable offset.toNat) := by
  refine List.ext_getElem? fun i ↦ ?_
  rw [List.getElem?_map]
  rcases hoffset : offsets[i]? with - | offset
  · rw [List.getElem?_eq_none_iff] at hoffset
    rw [List.getElem?_eq_none_iff.mpr (by rw [length_results]; exact hoffset), Option.map_none]
  · have hi : i < (results offsets).length := by
      rw [length_results]
      exact (List.getElem?_eq_some_iff.mp hoffset).1
    have hbyte := List.getElem?_eq_getElem hi
    obtain ⟨var, hvar, hbits⟩ := h.nonnull _ (List.getElem_mem hi)
    rw [hvar] at hbyte
    have hname := h.named i offset var hoffset hbyte
    rw [hbyte, Option.map_some, inputVariable, ← hname, ← hbits]

theorem DistinctVariables.of_results {offsets : List SizeT}
    (h : results offsets = offsets.map fun offset ↦ some (inputVariable offset.toNat)) :
    DistinctVariables offsets := by
  have hget : ∀ i : ℕ, (results offsets)[i]?
      = offsets[i]?.map fun offset ↦ some (inputVariable offset.toNat) := by
    intro i
    rw [h, List.getElem?_map]
  constructor
  · intro byte hbyte
    rw [h, List.mem_map] at hbyte
    obtain ⟨offset, -, rfl⟩ := hbyte
    exact ⟨inputVariable offset.toNat, rfl, rfl⟩
  · intro i hi j hj
    rw [hget, hget, List.getElem?_eq_getElem hi, List.getElem?_eq_getElem hj, Option.map_some,
      Option.map_some, Option.some.injEq, Option.some.injEq, Option.some.injEq,
      inputVariable_injective.eq_iff, BitVec.toNat_inj]
  · intro i offset var hoffset hvar
    rw [hget, hoffset, Option.map_some, Option.some.injEq, Option.some.injEq] at hvar
    rw [← hvar, inputVariable]

/-- A sequence of calls returns distinct variables with the right names exactly when every offset is
asked for after all smaller ones. -/
theorem distinctVariables_iff (offsets : List SizeT) :
    DistinctVariables offsets ↔ InOrder offsets := by
  rw [← results_eq_iff inputVariable_injective.injOn, ← results_eq]
  exact ⟨DistinctVariables.results_eq, DistinctVariables.of_results⟩

/-- After a seek to offset 5, its byte is called `stdin0`, and the byte at offset 2 has none. -/
theorem not_distinctVariables : ¬ DistinctVariables [5, 2] := by
  intro h
  obtain ⟨var, hnull, -⟩ := h.nonnull none (by decide)
  cases hnull

end Adacc.InputBytes
