import Adacc.Runtime.MemoryEvents
import Adacc.Runtime.MemoryValues
import Adacc.Runtime.StringFunctions

/-!
# Copies of memory and of its shadow

`memcpy`, `memmove` and `strncpy` change memory, and their wrappers change shadow memory separately,
each by itself. `strncpy` stops at the first NUL of the source, so its wrapper looks for the NUL
again, when memory has already changed. Both sides come down to one description: the first bytes are
copied and the rest of the destination is cleared.

The program may call the functions only with objects, and `memcpy` and `strncpy` only with objects
that do not overlap. The object that `strncpy` reads from ends at the NUL, which it looks at.
-/

namespace Adacc

open ModularRange

/-- A call of a function that copies. -/
inductive CopyCall
  | memcpy (dest src : UIntPtr) (n : SizeT)
  | memmove (dest src : UIntPtr) (n : SizeT)
  | strncpy (dest src : UIntPtr) (n : SizeT)

namespace CopyCall

def dest : CopyCall → UIntPtr
  | .memcpy dest _ _ | .memmove dest _ _ | .strncpy dest _ _ => dest

def src : CopyCall → UIntPtr
  | .memcpy _ src _ | .memmove _ src _ | .strncpy _ src _ => src

def n : CopyCall → SizeT
  | .memcpy _ _ n | .memmove _ _ n | .strncpy _ _ n => n

/-- The number of bytes that are copied: `min(n, strnlen(src, n))` for `strncpy`. -/
def copied (mem : UIntPtr → BitVec 8) : CopyCall → ℕ
  | .memcpy _ _ n | .memmove _ _ n => n.toNat
  | .strncpy _ src n => min n.toNat (strlenLoop mem n.toNat src)

/-- The number of bytes of the source that the function looks at. -/
def examined (mem : UIntPtr → BitVec 8) : CopyCall → ℕ
  | .memcpy _ _ n | .memmove _ _ n => n.toNat
  | .strncpy _ src n => min n.toNat (strlenLoop mem n.toNat src + 1)

/-- Memory after the call. -/
def memAfter (mem : UIntPtr → BitVec 8) : CopyCall → UIntPtr → BitVec 8
  | .memcpy dest src n | .memmove dest src n => libcMemmove dest src n mem
  | .strncpy dest src n => libcStrncpy dest src n mem

/-- The wrapper. The one for `strncpy` looks at memory after the call. -/
def wrapper (leftToRight : Bool) (mem : UIntPtr → BitVec 8) : CopyCall → LibcCall
  | .memcpy dest src n => .memcpy leftToRight dest src n
  | .memmove dest src n => .memmove leftToRight dest src n
  | .strncpy dest src n => .strncpy leftToRight (libcStrncpy dest src n mem) dest src n

/-- The objects do not overlap, except for `memmove`. -/
def Apart (mem : UIntPtr → BitVec 8) (call : CopyCall) : Prop :=
  match call with
  | .memmove _ _ _ => True
  | .memcpy _ _ _ | .strncpy _ _ _ =>
    call.dest.toNat + call.n.toNat ≤ call.src.toNat ∨
      call.src.toNat + call.examined mem ≤ call.dest.toNat

/-- The program may call the function like this. -/
structure IsProper (mem : UIntPtr → BitVec 8) (call : CopyCall) : Prop where
  dest : IsObject call.dest call.n
  src : call.src.toNat + call.examined mem < 2 ^ 64
  apart : call.Apart mem

private theorem copied_le (mem : UIntPtr → BitVec 8) (call : CopyCall) :
    call.copied mem ≤ call.examined mem ∧ call.examined mem ≤ call.n.toNat := by
  cases call with
  | memcpy dest src n | memmove dest src n => exact ⟨le_rfl, le_rfl⟩
  | strncpy dest src n =>
    exact ⟨min_le_min_left _ (Nat.le_succ _), min_le_left _ _⟩

/-- In memory, the first bytes are copied and the rest is zero. -/
theorem memAfter_eq (mem : UIntPtr → BitVec 8) (call : CopyCall) :
    call.memAfter mem = rangeUpdate mem call.dest call.n.toNat fun i ↦
      if i < call.copied mem then mem (call.src + BitVec.ofNat 64 i) else 0 := by
  cases call with
  | memcpy dest src n | memmove dest src n =>
    dsimp only [memAfter, libcMemmove, CopyCall.dest, CopyCall.src, CopyCall.n, copied]
    exact (rangeUpdate_ite_lt _ _ _ _ _).symm
  | strncpy dest src n =>
    dsimp only [memAfter, libcStrncpy, CopyCall.dest, CopyCall.src, CopyCall.n]
    exact (rangeUpdate_ite_lt_min _ _ _ _ _ _).symm

/-- The bytes that `strncpy` has looked at are as before, so that looking again finds the same
NUL. -/
theorem strlenLoop_libcStrncpy {mem : UIntPtr → BitVec 8} {dest src : UIntPtr} {n : SizeT}
    (h : (CopyCall.strncpy dest src n).IsProper mem) :
    strlenLoop (libcStrncpy dest src n mem) n.toNat src = strlenLoop mem n.toNat src := by
  obtain ⟨hdest, hsrc, hapart⟩ := h
  refine strlenLoop_congr fun i hi hle ↦ rangeUpdate_of_le ?_
  dsimp only [Apart, CopyCall.dest, CopyCall.src, CopyCall.n, examined] at hdest hsrc hapart
  rw [IsObject] at hdest
  have hi64 : (src + BitVec.ofNat 64 i).toNat = src.toNat + i := by
    rw [BitVec.toNat_add, BitVec.toNat_ofNat, Nat.add_mod_mod, Nat.mod_eq_of_lt (by omega)]
  rw [BitVec.toNat_sub, hi64]
  omega

variable {SymExpr : Type} [Backend SymExpr]

/-- In shadow memory, the first entries are copied and the rest is null. -/
theorem shadowAt_wrapper (cfg : Config) (s : LibcState SymExpr) (leftToRight : Bool)
    {mem : UIntPtr → BitVec 8} {call : CopyCall} (h : call.IsProper mem) :
    shadowAt (s.call cfg (call.wrapper leftToRight mem)).pages
      = rangeUpdate (shadowAt s.pages) call.dest call.n.toNat fun i ↦
          if i < call.copied mem then shadowAt s.pages (call.src + BitVec.ofNat 64 i)
          else none := by
  obtain ⟨hdest, hsrc, hapart⟩ := h
  cases call with
  | memcpy dest src n =>
    have hproper : LibcCall.IsProper (.memcpy leftToRight dest src n) :=
      ⟨hdest, hsrc, .inr hapart⟩
    refine (LibcState.shadowAt_call cfg s hproper).trans ?_
    dsimp only [LibcState.flatCall, FlatShadow.copy, CopyCall.dest, CopyCall.src, CopyCall.n,
      copied]
    exact (rangeUpdate_ite_lt _ _ _ _ _).symm
  | memmove dest src n =>
    have hproper : LibcCall.IsProper (.memmove leftToRight dest src n) := ⟨hdest, hsrc⟩
    refine (LibcState.shadowAt_call cfg s hproper).trans ?_
    dsimp only [LibcState.flatCall, FlatShadow.copy, CopyCall.dest, CopyCall.src, CopyCall.n,
      copied]
    exact (rangeUpdate_ite_lt _ _ _ _ _).symm
  | strncpy dest src n =>
    have hlen := strlenLoop_libcStrncpy ⟨hdest, hsrc, hapart⟩
    have hle := strlenLoop_le mem n.toNat src
    have hproper :
        LibcCall.IsProper (.strncpy leftToRight (libcStrncpy dest src n mem) dest src n) := by
      dsimp only [Apart, CopyCall.dest, CopyCall.src, CopyCall.n, examined] at hdest hsrc hapart
      rw [LibcCall.IsProper, hlen]
      exact ⟨hdest, by omega, by omega⟩
    refine (LibcState.shadowAt_call cfg s hproper).trans ?_
    dsimp only [LibcState.flatCall, CopyCall.dest, CopyCall.src, CopyCall.n]
    rw [hlen]
    exact (rangeUpdate_ite_lt_min _ _ _ _ _ _).symm

/-- What a wrapper for a copying function should do. -/
structure Copies (ρ : Input) (mem : UIntPtr → BitVec 8) (pages pages' : ShadowPages SymExpr)
    (call : CopyCall) : Prop where
  consistent : Consistent ρ (call.memAfter mem) pages'
  copied : ∀ i < call.copied mem, shadowAt pages' (call.dest + BitVec.ofNat 64 i)
    = shadowAt pages (call.src + BitVec.ofNat 64 i)
  rest : ∀ i < call.n.toNat, call.copied mem ≤ i →
    shadowAt pages' (call.dest + BitVec.ofNat 64 i) = none
  outside : ∀ a, (∀ i < call.n.toNat, a ≠ call.dest + BitVec.ofNat 64 i) →
    shadowAt pages' a = shadowAt pages a

/-- The wrappers copy memory and its shadow alike. -/
theorem copies (cfg : Config) {ρ : Input} {mem : UIntPtr → BitVec 8} {s : LibcState SymExpr}
    (hs : Consistent ρ mem s.pages) (leftToRight : Bool) {call : CopyCall}
    (hcall : call.IsProper mem) :
    Copies ρ mem s.pages (s.call cfg (call.wrapper leftToRight mem)).pages call := by
  have hshadow := shadowAt_wrapper cfg s leftToRight hcall
  obtain ⟨hcopied, hexamined⟩ := call.copied_le mem
  have hn := call.n.isLt
  constructor
  · intro a e he
    rw [hshadow] at he
    rw [memAfter_eq]
    unfold rangeUpdate at he ⊢
    split at he
    · next hlt =>
      rw [if_pos hlt]
      dsimp only at he ⊢
      split at he
      · next hi =>
        rw [if_pos hi]
        exact hs _ e he
      · cases he
    · next hge =>
      rw [if_neg hge]
      exact hs a e he
  · intro i hi
    rw [hshadow, rangeUpdate_add_ofNat _ _ _ (by omega) (by omega), if_pos hi]
  · intro i hi hrest
    rw [hshadow, rangeUpdate_add_ofNat _ _ _ hi (by omega), if_neg (Nat.not_lt.mpr hrest)]
  · intro a ha
    rw [hshadow]
    refine rangeUpdate_of_le (Nat.le_of_not_lt fun hlt ↦ ha _ hlt ?_)
    exact (add_toNat_sub call.dest a).symm

/-- The state with the symbolic byte of `secondPageShadow`. -/
def secondPageState : LibcState Z3Ast := { LibcState.init with pages := secondPageShadow }

/-- `strncpy` of that byte, which is a NUL, to an address on the first page. -/
theorem copies_strncpy :
    Copies (fun _ ↦ 0) (fun _ ↦ 0) secondPageState.pages
      (secondPageState.call standardInput
        ((CopyCall.strncpy 16 4096 3).wrapper true fun _ ↦ 0)).pages (.strncpy 16 4096 3) :=
  copies standardInput consistent_secondPageShadow true
    (⟨by decide, by decide, .inl (by decide)⟩ : (CopyCall.strncpy 16 4096 3).IsProper fun _ ↦ 0)

end CopyCall

end Adacc
