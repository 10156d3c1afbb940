import Adacc.Runtime.WrapperConstraints

/-!
# Results that the wrappers concretize

The wrappers for `strchr`, `memcmp` and `strncpy` return no expression, so the program goes on as if
the result did not depend on the input. Whether it does is up to the constraints that the wrapper
has pushed: another input that satisfies them should lead to the same result (`Pinned`).

The constraints on the parameters do their part, because they lead to the same call. Those on the
bytes say less than the result does. After `strchr`, the bytes before the place where it has stopped
are known not to be the character, but nothing is said of the byte there, nor of a NUL before it;
after `memcmp` it is known whether the ranges are equal; after `strncpy` nothing is known of the
source. `concretized` says what this comes to for every other input.
-/

namespace Adacc

open ModularRange SmtLib

/-- A call of a function whose result is concretized. -/
inductive StringCall
  | strchr (str : UIntPtr) (c : BitVec 32)
  | memcmp (a b : UIntPtr) (n : SizeT)
  | strncpy (dest src : UIntPtr) (n : SizeT)

/-- Where `strchr` stops: at the character, or else at the NUL. -/
def strchrStop (mem : UIntPtr → BitVec 8) (str : UIntPtr) (c : BitVec 32) : SizeT :=
  (libcStrchr mem str c).elim (strlen mem str) (· - str)

namespace StringCall

/-- The wrapper, with what the library answers. -/
def wrapper (leftToRight : Bool) (mem : UIntPtr → BitVec 8) : StringCall → LibcCall
  | .strchr str c => .strchr mem str c (libcStrchr mem str c)
  | .memcmp a b n => .memcmp mem a b n (decide (libcMemcmp mem a b n = .eq))
  | .strncpy dest src n => (CopyCall.strncpy dest src n).wrapper leftToRight mem

/-- The program may call the function like this. -/
def IsProper (mem : UIntPtr → BitVec 8) : StringCall → Prop
  | .strchr str c => IsObject str (strchrStop mem str c)
  | .memcmp a b n => IsObject a n ∧ IsObject b n
  | .strncpy dest src n => (CopyCall.strncpy dest src n).IsProper mem

/-- Memory after the call. -/
def memAfter (mem : UIntPtr → BitVec 8) : StringCall → UIntPtr → BitVec 8
  | .strncpy dest src n => libcStrncpy dest src n mem
  | _ => mem

/-- What the constraints on the bytes say of memory under another input. -/
def Scanned (mem mem' : UIntPtr → BitVec 8) : StringCall → Prop
  | .strchr str c =>
    ∀ i < (strchrStop mem str c).toNat, mem' (str + BitVec.ofNat 64 i) ≠ c.setWidth 8
  | .memcmp a b n => libcMemcmp mem' a b n = .eq ↔ libcMemcmp mem a b n = .eq
  | .strncpy _ _ _ => True

/-- What they leave open: the byte where `strchr` has stopped and the NULs before it, the order of
the first bytes that differ, and the place of the NUL in the source of `strncpy`. -/
def Agrees (mem mem' : UIntPtr → BitVec 8) : StringCall → Prop
  | .strchr str c =>
    let stop := (strchrStop mem str c).toNat
    if (libcStrchr mem str c).isSome then
      mem' (str + BitVec.ofNat 64 stop) = c.setWidth 8 ∧
        ∀ i < stop, mem' (str + BitVec.ofNat 64 i) ≠ 0
    else
      ∀ k < 2 ^ 64 - 1, stop ≤ k → mem' (str + BitVec.ofNat 64 k) = c.setWidth 8 →
        ∃ i < k, mem' (str + BitVec.ofNat 64 i) = 0
  | .memcmp a b n =>
    ∀ i < n.toNat, (∀ j < i, mem' (a + BitVec.ofNat 64 j) = mem' (b + BitVec.ofNat 64 j)) →
      mem' (a + BitVec.ofNat 64 i) ≠ mem' (b + BitVec.ofNat 64 i) →
        compare (mem' (a + BitVec.ofNat 64 i)).toNat (mem' (b + BitVec.ofNat 64 i)).toNat
          = libcMemcmp mem a b n
  | .strncpy _ src n =>
    let copied := strlenLoop mem n.toNat src
    (∀ i < copied, mem' (src + BitVec.ofNat 64 i) ≠ 0 →
        ∀ j < i, mem' (src + BitVec.ofNat 64 j) ≠ 0) ∧
      (copied < n.toNat → ∃ i ≤ copied, mem' (src + BitVec.ofNat 64 i) = 0)

end StringCall

variable {SymExpr : Type} [Backend SymExpr]

open Backend

/-- The call that the program makes under an input, where its expressions say so. -/
inductive StringCall.Under (ρ : Input) (s : LibcState SymExpr) : StringCall → StringCall → Prop
  | strchr {str str' : UIntPtr} {c c' : BitVec 32}
      (hstr : ParameterUnder ρ (s.param 0) (.bv 64 str) (.bv 64 str'))
      (hc : ParameterUnder ρ (s.param 1) (.bv 32 c) (.bv 32 c')) :
      Under ρ s (.strchr str c) (.strchr str' c')
  | memcmp {a a' b b' : UIntPtr} {n n' : SizeT}
      (ha : ParameterUnder ρ (s.param 0) (.bv 64 a) (.bv 64 a'))
      (hb : ParameterUnder ρ (s.param 1) (.bv 64 b) (.bv 64 b'))
      (hn : ParameterUnder ρ (s.param 2) (.bv 64 n) (.bv 64 n')) :
      Under ρ s (.memcmp a b n) (.memcmp a' b' n')
  | strncpy {dest dest' src src' : UIntPtr} {n n' : SizeT}
      (hdest : ParameterUnder ρ (s.param 0) (.bv 64 dest) (.bv 64 dest'))
      (hsrc : ParameterUnder ρ (s.param 1) (.bv 64 src) (.bv 64 src'))
      (hn : ParameterUnder ρ (s.param 2) (.bv 64 n) (.bv 64 n')) :
      Under ρ s (.strncpy dest src n) (.strncpy dest' src' n')

/-- The constraints that a wrapper pushes. -/
def LibcState.pushed (cfg : Config) (s : LibcState SymExpr) (call : LibcCall) :
    List (PathConstraint SymExpr) :=
  (s.call cfg call).pathConstraints.drop s.pathConstraints.length

/-- The constraints hold under `ρ`, with their taken flags. -/
def AllHold (ρ : Input) (constraints : List (PathConstraint SymExpr)) : Prop :=
  ∀ c ∈ constraints, eval ρ c.constraint = .bool c.taken

/-- The result of a call under another input is that of the call in the run: the pointer of
`strchr`, the sign of `memcmp`, and for `strncpy` the bytes that it stores, as shadow memory `pages`
and memory `memAfter` describe them. -/
def SameResult (ρ : Input) (pages : ShadowPages SymExpr) (mem memAfter mem' : UIntPtr → BitVec 8) :
    StringCall → StringCall → Prop
  | .strchr str c, .strchr str' c' => libcStrchr mem' str' c' = libcStrchr mem str c
  | .memcmp a b n, .memcmp a' b' n' => libcMemcmp mem' a' b' n' = libcMemcmp mem a b n
  | .strncpy _ _ _, .strncpy dest' src' n' => ∀ i < n'.toNat,
    eval ρ (byteExpr memAfter pages (dest' + BitVec.ofNat 64 i))
      = .bv 8 (libcStrncpy dest' src' n' mem' (dest' + BitVec.ofNat 64 i))
  | _, _ => False

/-- Every input that satisfies what a proper call has pushed in a consistent state leads to the same
result. -/
def Pinned (cfg : Config) (leftToRight : Bool) (input : Input) (s : LibcState SymExpr)
    (mem : UIntPtr → BitVec 8) (call : StringCall) : Prop :=
  Consistent input mem s.pages → call.Under input s call → call.IsProper mem →
    ∀ ρ mem' call', MemoryUnder ρ s.pages mem mem' → call.Under ρ s call' →
      AllHold ρ (s.pushed cfg (call.wrapper leftToRight mem)) →
        SameResult ρ (s.call cfg (call.wrapper leftToRight mem)).pages mem (call.memAfter mem)
          mem' call call'

/-! ## The arguments are the same -/

section Constraints

variable {ρ : Input} {s : LibcState SymExpr}

/-- `tryAlternative` pins a parameter. -/
theorem allHold_alternatives_iff (bits : UInt8) (hbits : 0 < bits.toNat) {value : BitVec 64}
    {x' : BitVec bits.toNat} {caller : LibcFunction} {param : Option SymExpr}
    (hunder : ParameterUnder ρ param (.bv bits.toNat (value.setWidth bits.toNat))
      (.bv bits.toNat x')) :
    AllHold ρ (alternatives value bits caller param) ↔ x' = value.setWidth bits.toNat := by
  cases param with
  | none => exact iff_of_true (List.forall_mem_nil _) (Value.bv_inj hunder)
  | some e =>
    refine List.forall_mem_singleton.trans ?_
    rw [eval_alternative hbits hunder value, Value.bool.injEq, beq_iff_eq]

theorem allHold_alternatives_word_iff {x x' : BitVec 64} {caller : LibcFunction}
    {param : Option SymExpr} (hunder : ParameterUnder ρ param (.bv 64 x) (.bv 64 x')) :
    AllHold ρ (alternatives x 64 caller param) ↔ x' = x := by
  have hwidth : x.setWidth (64 : UInt8).toNat = x := BitVec.setWidth_eq x
  rw [allHold_alternatives_iff 64 (by decide) (hwidth.symm ▸ hunder), hwidth]

private theorem allHold_alternatives_int_iff {x x' : BitVec 32} {caller : LibcFunction}
    {param : Option SymExpr} (hunder : ParameterUnder ρ param (.bv 32 x) (.bv 32 x')) :
    AllHold ρ (alternatives (x.signExtend 64) 32 caller param) ↔ x' = x := by
  have hwidth : (x.signExtend 64).setWidth (32 : UInt8).toNat = x :=
    (setWidth_signExtend x (by decide) (by decide)).trans (BitVec.setWidth_eq x)
  rw [allHold_alternatives_iff 32 (by decide) (hwidth.symm ▸ hunder), hwidth]

theorem allHold_append_iff {cs cs' : List (PathConstraint SymExpr)} :
    AllHold ρ (cs ++ cs') ↔ AllHold ρ cs ∧ AllHold ρ cs' :=
  List.forall_mem_append

/-- The constraints on the parameters hold under the inputs that lead to the same call. -/
theorem allHold_pinConstraints_iff {call call' : StringCall} (hunder : call.Under ρ s call')
    (leftToRight : Bool) (mem : UIntPtr → BitVec 8) :
    AllHold ρ (s.pinConstraints (call.wrapper leftToRight mem)) ↔ call' = call := by
  unfold LibcState.pinConstraints
  cases hunder with
  | strchr hstr hc =>
    simp only [StringCall.wrapper, LibcCall.pins, List.flatMap_cons, List.flatMap_nil,
      List.append_nil, allHold_append_iff, allHold_alternatives_word_iff hstr,
      allHold_alternatives_int_iff hc, StringCall.strchr.injEq]
  | memcmp ha hb hn =>
    simp only [StringCall.wrapper, LibcCall.pins, List.flatMap_cons, List.flatMap_nil,
      List.append_nil, allHold_append_iff, allHold_alternatives_word_iff ha,
      allHold_alternatives_word_iff hb, allHold_alternatives_word_iff hn,
      StringCall.memcmp.injEq]
  | strncpy hdest hsrc hn =>
    simp only [StringCall.wrapper, CopyCall.wrapper, LibcCall.pins, List.flatMap_cons,
      List.flatMap_nil, List.append_nil, allHold_append_iff,
      allHold_alternatives_word_iff hdest, allHold_alternatives_word_iff hsrc,
      allHold_alternatives_word_iff hn, StringCall.strncpy.injEq]

theorem LibcState.pushed_eq (cfg : Config) (call : LibcCall) :
    s.pushed cfg call = s.pinConstraints call ++ s.scanConstraints call := by
  rw [pushed, pathConstraints_call, List.drop_left]

end Constraints

/-! ## The results of the functions -/

section Results

variable {mem mem' : UIntPtr → BitVec 8}

private theorem toNat_strchrStop_of_some {str : UIntPtr} {c : BitVec 32} {k : ℕ} (hk : k < 2 ^ 64)
    (h : libcStrchr mem str c = some (str + BitVec.ofNat 64 k)) :
    (strchrStop mem str c).toNat = k := by
  rw [strchrStop, h, Option.elim_some, toNat_add_ofNat_sub str hk]

/-- What the constraints leave open decides the result of `strchr`. -/
theorem libcStrchr_eq_iff {str : UIntPtr} {c : BitVec 32}
    (hscanned : (StringCall.strchr str c).Scanned mem mem') :
    libcStrchr mem' str c = libcStrchr mem str c ↔ (StringCall.strchr str c).Agrees mem mem' := by
  dsimp only [StringCall.Scanned, StringCall.Agrees] at hscanned ⊢
  cases h : libcStrchr mem str c with
  | some a =>
    obtain ⟨k, hk, rfl, -, -⟩ := strchrLoop_eq_some_iff.mp h
    rw [toNat_strchrStop_of_some (by omega) h] at hscanned ⊢
    rw [Option.isSome_some, if_pos rfl, libcStrchr, strchrLoop_eq_some_iff]
    constructor
    · rintro ⟨k', hk', heq, hat, hbefore⟩
      obtain rfl : k = k' := by
        rw [← toNat_add_ofNat_sub (w := 64) str (by omega : k < 2 ^ 64), heq,
          toNat_add_ofNat_sub str (by omega)]
      exact ⟨hat, fun i hi ↦ (hbefore i hi).2⟩
    · rintro ⟨hat, hbefore⟩
      exact ⟨k, hk, rfl, hat, fun i hi ↦ ⟨hscanned i hi, hbefore i hi⟩⟩
  | none =>
    rw [Option.isSome_none, if_neg Bool.false_ne_true, libcStrchr, strchrLoop_eq_none_iff]
    constructor
    · intro hnone k hk _ hat
      by_contra! hbefore
      exact hnone k hk hbefore hat
    · intro hopen k hk hbefore hat
      rcases lt_or_ge k (strchrStop mem str c).toNat with hlt | hge
      · exact hscanned k hlt hat
      · obtain ⟨i, hi, hnul⟩ := hopen k hk hge hat
        exact hbefore i hi hnul

/-- What the constraint leaves open decides the sign of `memcmp`. -/
theorem libcMemcmp_eq_libcMemcmp_iff {a b : UIntPtr} {n : SizeT}
    (hscanned : (StringCall.memcmp a b n).Scanned mem mem') :
    libcMemcmp mem' a b n = libcMemcmp mem a b n ↔ (StringCall.memcmp a b n).Agrees mem mem' := by
  dsimp only [StringCall.Scanned, StringCall.Agrees] at hscanned ⊢
  by_cases heq : libcMemcmp mem' a b n = .eq
  · refine iff_of_true (heq.trans (hscanned.mp heq).symm) fun i hi _ hne ↦ ?_
    exact absurd (libcMemcmp_eq_iff.mp heq i hi) hne
  · obtain ⟨i, hi, hbefore, hat⟩ := exists_of_memcmpLoop_ne heq
    rw [← libcMemcmp] at hat
    have hne : mem' (a + BitVec.ofNat 64 i) ≠ mem' (b + BitVec.ofNat 64 i) := by
      intro hsame
      rw [hsame, Nat.compare_eq_eq.mpr rfl] at hat
      exact heq hat.symm
    constructor
    · intro hresult i' hi' hbefore' hne'
      -- there is only one first difference
      obtain rfl : i' = i := by
        rcases lt_trichotomy i' i with hlt | heq' | hgt
        · exact absurd (hbefore i' hlt) hne'
        · exact heq'
        · exact absurd (hbefore' i hgt) hne
      rw [hat, hresult]
    · intro hopen
      rw [← hat, hopen i hi hbefore hne]

/-- The source of `strncpy` decides which bytes are stored. -/
theorem libcStrncpy_eq_iff (dest : UIntPtr) {src : UIntPtr} {n : SizeT} :
    (∀ i < n.toNat, libcStrncpy dest src n mem' (dest + BitVec.ofNat 64 i)
        = if i < strlenLoop mem n.toNat src then mem' (src + BitVec.ofNat 64 i) else 0) ↔
      (StringCall.strncpy dest src n).Agrees mem mem' := by
  have hn := n.isLt
  have hle := strlenLoop_le mem n.toNat src
  have hbyte : ∀ i < n.toNat, libcStrncpy dest src n mem' (dest + BitVec.ofNat 64 i)
      = if i < strlenLoop mem' n.toNat src then mem' (src + BitVec.ofNat 64 i) else 0 :=
    fun i hi ↦ rangeUpdate_add_ofNat _ _ _ hi (by omega)
  dsimp only [StringCall.Agrees]
  constructor
  · intro h
    constructor
    · intro i hi hne j hj
      have hi' := h i (hi.trans_le hle)
      rw [hbyte i (hi.trans_le hle), if_pos hi] at hi'
      split at hi'
      · next hlt => exact ne_zero_of_lt_strlenLoop (hj.trans hlt)
      · exact absurd hi'.symm hne
    · intro hlt
      by_contra! hne
      have hcopied := h _ hlt
      rw [hbyte _ hlt, if_pos ((lt_strlenLoop_iff hlt).mpr hne), if_neg (lt_irrefl _)] at hcopied
      exact hne _ le_rfl hcopied
  · rintro ⟨hnuls, hend⟩ i hi
    rw [hbyte i hi]
    by_cases hlen' : i < strlenLoop mem' n.toNat src
    · rw [if_pos hlen', if_pos]
      by_contra hlen
      obtain ⟨k, hk, hnul⟩ := hend (by omega)
      exact (lt_strlenLoop_iff hi).mp hlen' k (by omega) hnul
    · rw [if_neg hlen']
      split
      · next hlen =>
        by_contra hne
        refine hlen' ((lt_strlenLoop_iff hi).mpr fun j hj ↦ ?_)
        rcases hj.lt_or_eq with hlt | rfl
        · exact hnuls i hlen (Ne.symm hne) j hlt
        · exact Ne.symm hne
      · rfl

end Results

/-! ## What the constraints say -/

section Concretized

variable {ρ : Input} {s : LibcState SymExpr} {mem mem' : UIntPtr → BitVec 8} {call : StringCall}

/-- A concrete range is the same under every input. -/
theorem MemoryUnder.eq_of_isConcrete (hmem : MemoryUnder ρ s.pages mem mem') {addr : UIntPtr}
    {nbytes : SizeT} (hobject : IsObject addr nbytes)
    (h : isConcrete s.pages addr nbytes = true) {i : ℕ} (hi : i < nbytes.toNat) :
    mem' (addr + BitVec.ofNat 64 i) = mem (addr + BitVec.ofNat 64 i) :=
  hmem.unchanged _ ((isConcrete_iff (hobject.fastPathSound s.pages)).mp h i hi)

private theorem allHold_scan_strchr_iff (hmem : MemoryUnder ρ s.pages mem mem') {str : UIntPtr}
    {c : BitVec 32} (hproper : (StringCall.strchr str c).IsProper mem)
    (hc : ParameterUnder ρ (s.param 1) (.bv 32 c) (.bv 32 c)) :
    AllHold ρ (s.scanConstraints (.strchr mem str c (libcStrchr mem str c))) ↔
      (StringCall.strchr str c).Scanned mem mem' := by
  dsimp only [LibcState.scanConstraints]
  split
  · next hconcrete =>
    rw [Bool.and_eq_true] at hconcrete
    refine iff_of_true (List.forall_mem_nil _) fun i hi ↦ ?_
    rw [hmem.eq_of_isConcrete hproper hconcrete.1 hi]
    exact ne_of_lt_strchr hi
  · refine List.forall_mem_map.trans ?_
    simp only [eval_strchrConstraint hmem hc, Value.bool.injEq, List.mem_range]
    exact forall₂_congr fun i _ ↦ bne_iff_ne

private theorem allHold_scan_memcmp_iff (hmem : MemoryUnder ρ s.pages mem mem') {a b : UIntPtr}
    {n : SizeT} (hproper : (StringCall.memcmp a b n).IsProper mem) :
    AllHold ρ (s.scanConstraints (.memcmp mem a b n (decide (libcMemcmp mem a b n = .eq)))) ↔
      (StringCall.memcmp a b n).Scanned mem mem' := by
  dsimp only [LibcState.scanConstraints, StringCall.Scanned]
  split
  · next hconcrete =>
    rw [Bool.and_eq_true] at hconcrete
    refine iff_of_true (List.forall_mem_nil _) ?_
    rw [libcMemcmp_eq_iff, libcMemcmp_eq_iff]
    refine forall₂_congr fun i hi ↦ ?_
    rw [hmem.eq_of_isConcrete hproper.1 hconcrete.1 hi,
      hmem.eq_of_isConcrete hproper.2 hconcrete.2 hi]
  · next hsymbolic =>
    refine List.forall_mem_singleton.trans ?_
    rw [eval_conjunction (eval_bytesEqual hmem a b), toNat_pred_add_one hsymbolic,
      Value.bool.injEq, Bool.eq_iff_iff, List.all_eq_true, decide_eq_true_iff, libcMemcmp_eq_iff,
      libcMemcmp_eq_iff]
    simp only [List.mem_range, beq_iff_eq]

/-- The constraints hold under the inputs that lead to the same call and to such a memory. -/
theorem allHold_pushed_iff (cfg : Config) (leftToRight : Bool) (hproper : call.IsProper mem)
    (hmem : MemoryUnder ρ s.pages mem mem') {call' : StringCall}
    (hcall : call.Under ρ s call') :
    AllHold ρ (s.pushed cfg (call.wrapper leftToRight mem)) ↔
      call' = call ∧ call.Scanned mem mem' := by
  rw [LibcState.pushed_eq, allHold_append_iff, allHold_pinConstraints_iff hcall]
  refine and_congr_right fun heq ↦ ?_
  subst heq
  cases hcall with
  | strchr hstr hc => exact allHold_scan_strchr_iff hmem hproper hc
  | memcmp ha hb hn => exact allHold_scan_memcmp_iff hmem hproper
  | strncpy hdest hsrc hn => exact iff_of_true (List.forall_mem_nil _) trivial

/-- The shadow that `strncpy` leaves evaluates to the bytes that it has copied. -/
theorem eval_byteExpr_strncpy (cfg : Config) (hmem : MemoryUnder ρ s.pages mem mem')
    {dest src : UIntPtr} {n : SizeT} (hproper : (CopyCall.strncpy dest src n).IsProper mem)
    (leftToRight : Bool) {i : ℕ} (hi : i < n.toNat) :
    eval ρ (byteExpr (libcStrncpy dest src n mem)
        (s.call cfg ((CopyCall.strncpy dest src n).wrapper leftToRight mem)).pages
        (dest + BitVec.ofNat 64 i))
      = .bv 8 (if i < strlenLoop mem n.toNat src then mem' (src + BitVec.ofNat 64 i) else 0) := by
  have hn := n.isLt
  have hshadow :
      shadowAt (s.call cfg ((CopyCall.strncpy dest src n).wrapper leftToRight mem)).pages
          (dest + BitVec.ofNat 64 i)
        = if i < strlenLoop mem n.toNat src then shadowAt s.pages (src + BitVec.ofNat 64 i)
          else none := by
    rw [CopyCall.shadowAt_wrapper cfg s leftToRight hproper]
    refine (rangeUpdate_add_ofNat _ _ _ hi (by omega)).trans (if_congr ?_ rfl rfl)
    rw [CopyCall.copied, lt_min_iff, and_iff_right hi]
  rw [byteExpr, hshadow, libcStrncpy, rangeUpdate_add_ofNat _ _ _ hi (by omega)]
  split
  · exact hmem.eval_getD _ (eval_constantByte ρ _)
  · exact eval_constantByte ρ 0

/-- What is known of another input that satisfies the constraints of a call. -/
structure Concretized (cfg : Config) (ρ : Input) (s : LibcState SymExpr) (leftToRight : Bool)
    (mem mem' : UIntPtr → BitVec 8) (call call' : StringCall) : Prop where
  call_eq : call' = call
  scanned : call.Scanned mem mem'
  sameResult_iff :
    SameResult ρ (s.call cfg (call.wrapper leftToRight mem)).pages mem (call.memAfter mem) mem'
      call call' ↔ call.Agrees mem mem'

/-- Every other input that satisfies the constraints leads to the same call, and to the same result
exactly if it agrees with the run on what the constraints leave open. -/
theorem concretized (cfg : Config) (leftToRight : Bool) (hproper : call.IsProper mem)
    (hmem : MemoryUnder ρ s.pages mem mem') {call' : StringCall} (hcall : call.Under ρ s call')
    (h : AllHold ρ (s.pushed cfg (call.wrapper leftToRight mem))) :
    Concretized cfg ρ s leftToRight mem mem' call call' := by
  obtain ⟨rfl, hscanned⟩ := (allHold_pushed_iff cfg leftToRight hproper hmem hcall).mp h
  refine ⟨rfl, hscanned, ?_⟩
  cases call' with
  | strchr str c => exact libcStrchr_eq_iff hscanned
  | memcmp a b n => exact libcMemcmp_eq_libcMemcmp_iff hscanned
  | strncpy dest src n =>
    rw [← libcStrncpy_eq_iff dest]
    refine forall₂_congr fun i hi ↦ ?_
    dsimp only [StringCall.memAfter, StringCall.wrapper]
    rw [eval_byteExpr_strncpy cfg hmem hproper leftToRight hi]
    exact ⟨fun heq ↦ (Value.bv_inj heq).symm, fun heq ↦ heq ▸ rfl⟩

end Concretized

/-! ## What the constraints miss -/

/-- Memory with the symbolic byte of `secondPageState`, and a `b` somewhere else. -/
def secondPageMemory (x : BitVec 8) : UIntPtr → BitVec 8 := fun a ↦
  if a = 4096 then x else if a = 8192 then 98 else 0

theorem memoryUnder_secondPageMemory (x y : BitVec 8) :
    MemoryUnder (fun _ ↦ y) CopyCall.secondPageState.pages (secondPageMemory x)
      (secondPageMemory y) := by
  have hshadow : shadowAt CopyCall.secondPageState.pages
      = rangeUpdate (fun _ ↦ none) 4096 1 fun _ ↦ some (.var 0) := shadowAt_secondPageShadow
  constructor
  · intro a e he
    rw [hshadow] at he
    unfold rangeUpdate at he
    split at he
    · next hlt =>
      obtain rfl : a = 4096 := by
        rw [← add_toNat_sub 4096 a, Nat.lt_one_iff.mp hlt]
        rfl
      cases he
      rfl
    · cases he
  · intro a ha
    have hne : a ≠ 4096 := by
      rintro rfl
      rw [hshadow] at ha
      exact absurd ha (by decide)
    rw [secondPageMemory, secondPageMemory, if_neg hne, if_neg hne]

theorem isProper_memcmp : (StringCall.memcmp 4096 8192 1).IsProper (secondPageMemory 97) :=
  ⟨by decide, by decide⟩

/-- A comparison with the `b`: the byte is `a` in the run and `c` otherwise. -/
theorem allHold_memcmp :
    AllHold (fun _ ↦ 99) (CopyCall.secondPageState.pushed standardInput
      ((StringCall.memcmp 4096 8192 1).wrapper true (secondPageMemory 97))) := by
  have hcall : (StringCall.memcmp 4096 8192 1).Under (fun _ ↦ 99) CopyCall.secondPageState
    (.memcmp 4096 8192 1) := .memcmp rfl rfl rfl
  refine (allHold_pushed_iff standardInput true isProper_memcmp
    (memoryUnder_secondPageMemory 97 99) hcall).mpr ⟨rfl, ?_⟩
  rw [StringCall.Scanned]
  decide

/-- Here the constraints do not decide the sign. -/
theorem concretized_memcmp :
    Concretized standardInput (fun _ ↦ 99) CopyCall.secondPageState true (secondPageMemory 97)
      (secondPageMemory 99) (.memcmp 4096 8192 1) (.memcmp 4096 8192 1) :=
  concretized standardInput true isProper_memcmp (memoryUnder_secondPageMemory 97 99)
    (.memcmp rfl rfl rfl) allHold_memcmp

private theorem not_pinned_memcmp :
    ¬ Pinned standardInput true (fun _ ↦ 97) CopyCall.secondPageState (secondPageMemory 97)
      (.memcmp 4096 8192 1) := by
  intro h
  have hsame : libcMemcmp (secondPageMemory 99) 4096 8192 1
      = libcMemcmp (secondPageMemory 97) 4096 8192 1 :=
    h (memoryUnder_secondPageMemory 97 97).consistent (.memcmp rfl rfl rfl)
      isProper_memcmp _ _ _ (memoryUnder_secondPageMemory 97 99) (.memcmp rfl rfl rfl)
      allHold_memcmp
  exact absurd hsame (by decide)

/-- `strchr` for `a` in a string that is `a` in the run and `b` otherwise. -/
theorem not_pinned_strchr :
    ¬ Pinned standardInput true (fun _ ↦ 97) CopyCall.secondPageState (secondPageMemory 97)
      (.strchr 4096 97) := by
  intro h
  have hrun : libcStrchr (secondPageMemory 97) 4096 97 = some 4096 :=
    strchrLoop_eq_some_iff.mpr ⟨0, by decide, rfl, rfl, fun i hi ↦ absurd hi (Nat.not_lt_zero i)⟩
  have hstop : strchrStop (secondPageMemory 97) 4096 97 = 0 := by
    rw [strchrStop, hrun]
    rfl
  have hproper : (StringCall.strchr 4096 97).IsProper (secondPageMemory 97) := by
    rw [StringCall.IsProper, hstop]
    decide
  have hmem := memoryUnder_secondPageMemory 97 98
  have hcall : (StringCall.strchr 4096 97).Under (fun _ ↦ 98) CopyCall.secondPageState
    (.strchr 4096 97) := .strchr rfl rfl
  have hscanned : (StringCall.strchr 4096 97).Scanned (secondPageMemory 97)
      (secondPageMemory 98) := by
    intro i hi
    rw [hstop] at hi
    exact absurd hi (Nat.not_lt_zero i)
  have hsame : libcStrchr (secondPageMemory 98) 4096 97
      = libcStrchr (secondPageMemory 97) 4096 97 :=
    h (memoryUnder_secondPageMemory 97 97).consistent (.strchr rfl rfl) hproper _ _ _ hmem hcall
      ((allHold_pushed_iff standardInput true hproper hmem hcall).mpr ⟨rfl, hscanned⟩)
  obtain ⟨k, -, -, hat, -⟩ := strchrLoop_eq_some_iff.mp (hsame.trans hrun)
  exact absurd hat (by decide)

/-- `strncpy` of a string that is empty in the run and `a` otherwise. -/
theorem not_pinned_strncpy :
    ¬ Pinned standardInput true (fun _ ↦ 0) CopyCall.secondPageState (secondPageMemory 0)
      (.strncpy 16 4096 2) := by
  intro h
  have hproper : (StringCall.strncpy 16 4096 2).IsProper (secondPageMemory 0) :=
    ⟨by decide, by decide, .inl (by decide)⟩
  have hmem := memoryUnder_secondPageMemory 0 97
  have hcall : (StringCall.strncpy 16 4096 2).Under (fun _ ↦ 97) CopyCall.secondPageState
    (.strncpy 16 4096 2) := .strncpy rfl rfl rfl
  have hsame := h (memoryUnder_secondPageMemory 0 0).consistent (.strncpy rfl rfl rfl) hproper
    _ _ _ hmem hcall
    ((allHold_pushed_iff standardInput true hproper hmem hcall).mpr ⟨rfl, trivial⟩) 0 (by decide)
  have heval := eval_byteExpr_strncpy standardInput hmem hproper true (i := 0) (by decide)
  exact absurd (Value.bv_inj (heval.symm.trans hsame)) (by decide)

/-- None of the three functions is pinned. -/
theorem not_pinned :
    (¬ Pinned standardInput true (fun _ ↦ 97) CopyCall.secondPageState (secondPageMemory 97)
        (.strchr 4096 97)) ∧
      (¬ Pinned standardInput true (fun _ ↦ 97) CopyCall.secondPageState (secondPageMemory 97)
        (.memcmp 4096 8192 1)) ∧
      ¬ Pinned standardInput true (fun _ ↦ 0) CopyCall.secondPageState (secondPageMemory 0)
        (.strncpy 16 4096 2) :=
  ⟨not_pinned_strchr, not_pinned_memcmp, not_pinned_strncpy⟩

end Adacc
