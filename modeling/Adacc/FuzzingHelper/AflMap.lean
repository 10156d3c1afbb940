import Adacc.Foundation.Machine
import Mathlib.Data.UInt

/-!
# Coverage maps of the fuzzing helper

`symcc.rs`: the fuzzing helper merges the coverage map of every new test case into a cumulative map
and keeps the test case if the merge reports a change. `merge` has two cases. Into a map without
bytes it clones the other map and always reports a change; otherwise it walks over the two vectors
together, so that it neither grows the cumulative map nor looks at what lies beyond its end.

The first map of a sequence therefore fixes the length of the cumulative map for good. The
cumulative map is the union of a sequence, and the reports are right, exactly when the first map has
a bit and no later map has a bit beyond the first one's end (`noCoverageLost_iff`).
-/

namespace Adacc

/-- `AflMap` -/
structure AflMap where
  data : List UInt8
  deriving DecidableEq

namespace AflMap

/-- `AflMap::new` -/
def new : AflMap := ⟨[]⟩

/-- `AflMap::load`, with the result of `fs::read` for every path. -/
def load (read : String → Option (List UInt8)) (path : String) : Except String AflMap :=
  match read path with
  | none =>
    .error ("Failed to read the AFL bitmap that afl-showmap should have generated at " ++ path)
  | some data => .ok { new with data := data }

/-- The loop of `merge` over the two vectors, which stops at the end of the shorter one. -/
def mergeLoop : List UInt8 → List UInt8 → Bool → List UInt8 × Bool
  | known :: self, new :: other, interesting =>
    if known ≠ known ||| new then
      let (self, interesting) := mergeLoop self other true
      ((known ||| new) :: self, interesting)
    else
      let (self, interesting) := mergeLoop self other interesting
      (known :: self, interesting)
  | self, _, interesting => (self, interesting)

/-- `AflMap::merge` -/
def merge (self other : AflMap) : AflMap × Bool :=
  if self.data.length = 0 then (⟨other.data⟩, true)
  else
    let (data, interesting) := mergeLoop self.data other.data false
    (⟨data⟩, interesting)

/-- Bit `b` of byte `i`; bytes past the end count as zero. -/
def bit (m : AflMap) (i b : ℕ) : Bool := (m.data.getD i 0).toNat.testBit b

private theorem bit_of_length_le {m : AflMap} {i : ℕ} (h : m.data.length ≤ i) (b : ℕ) :
    m.bit i b = false := by
  rw [bit, List.getD_eq_getElem?_getD, List.getElem?_eq_none h]
  exact Nat.zero_testBit b

/-! ## One merge -/

@[simp] theorem toNat_or (a b : UInt8) : (a ||| b).toNat = a.toNat ||| b.toNat := UInt8.toNat_or a b

/-- A byte changes when the new one has a bit that it lacks. -/
theorem ne_or_iff (known new : UInt8) :
    known ≠ known ||| new ↔
      ∃ b, new.toNat.testBit b = true ∧ known.toNat.testBit b = false := by
  rw [Ne, ← UInt8.toNat_inj, toNat_or]
  constructor
  · intro hne
    by_contra hall
    push Not at hall
    apply hne
    apply Nat.eq_of_testBit_eq
    intro b
    rw [Nat.testBit_or]
    cases hk : known.toNat.testBit b with
    | true => rfl
    | false =>
      cases hn : new.toNat.testBit b with
      | true => exact absurd hk (hall b hn)
      | false => rfl
  · rintro ⟨b, hnew, hknown⟩ heq
    have := congrArg (Nat.testBit · b) heq
    simp only [Nat.testBit_or, hknown, hnew] at this
    cases this

private theorem length_mergeLoop (self other : List UInt8) (interesting : Bool) :
    (mergeLoop self other interesting).1.length = self.length := by
  induction self generalizing other interesting with
  | nil => rfl
  | cons known self ih =>
    cases other with
    | nil => rfl
    | cons new other =>
      rw [mergeLoop]
      split <;> simp [ih]

private theorem testBit_mergeLoop (self other : List UInt8) (interesting : Bool) (i b : ℕ) :
    (((mergeLoop self other interesting).1).getD i 0).toNat.testBit b
      = ((self.getD i 0).toNat.testBit b ||
          (decide (i < self.length) && (other.getD i 0).toNat.testBit b)) := by
  induction self generalizing other interesting i with
  | nil => simp [mergeLoop]
  | cons known self ih =>
    cases other with
    | nil => simp [mergeLoop]
    | cons new other =>
      rw [mergeLoop]
      split
      · cases i with
        | zero => simp
        | succ i => simpa using ih other true i
      · next hsame =>
        cases i with
        | zero =>
          have hor : known = known ||| new := not_not.mp hsame
          simpa [← Nat.testBit_or] using congrArg (fun x ↦ x.toNat.testBit b) hor
        | succ i => simpa using ih other interesting i

private theorem mergeLoop_interesting (self other : List UInt8) (interesting : Bool) :
    (mergeLoop self other interesting).2 = true ↔
      interesting = true ∨ ∃ i < self.length, ∃ b,
        (other.getD i 0).toNat.testBit b = true ∧ (self.getD i 0).toNat.testBit b = false := by
  induction self generalizing other interesting with
  | nil => simp [mergeLoop]
  | cons known self ih =>
    cases other with
    | nil => simp [mergeLoop]
    | cons new other =>
      have hsplit : (∃ i < (known :: self).length, ∃ b,
            ((new :: other).getD i 0).toNat.testBit b = true ∧
              ((known :: self).getD i 0).toNat.testBit b = false) ↔
          known ≠ known ||| new ∨ ∃ i < self.length, ∃ b,
            (other.getD i 0).toNat.testBit b = true ∧ (self.getD i 0).toNat.testBit b = false := by
        rw [ne_or_iff, List.length_cons, Nat.exists_lt_succ_left]
        simp
      rw [hsplit, mergeLoop]
      split
      · next hne => simp [ih, hne]
      · next heq => simp [ih, heq]

private theorem mergeLoop_eq_self {self other : List UInt8} {interesting : Bool}
    (h : (mergeLoop self other interesting).2 = false) :
    (mergeLoop self other interesting).1 = self := by
  induction self generalizing other interesting with
  | nil => rfl
  | cons known self ih =>
    cases other with
    | nil => rfl
    | cons new other =>
      rw [mergeLoop] at h ⊢
      split at h
      · -- a change is never forgotten
        have hreport := (mergeLoop_interesting self other true).mpr (.inl rfl)
        exact absurd (h.symm.trans hreport) Bool.false_ne_true
      · next hsame =>
        rw [if_neg hsame]
        exact congrArg (known :: ·) (ih h)

section Merge

variable {self : AflMap} (other : AflMap)

theorem merge_of_empty (h : self.data = []) : self.merge other = (other, true) := by
  rw [merge, h, if_pos List.length_nil]

theorem length_merge (h : self.data ≠ []) :
    (self.merge other).1.data.length = self.data.length := by
  rw [merge, if_neg (fun h0 ↦ h (List.length_eq_zero_iff.mp h0))]
  exact length_mergeLoop _ _ _

private theorem bit_merge (h : self.data ≠ []) (i b : ℕ) :
    (self.merge other).1.bit i b
      = (self.bit i b || (decide (i < self.data.length) && other.bit i b)) := by
  rw [merge, if_neg (fun h0 ↦ h (List.length_eq_zero_iff.mp h0))]
  exact testBit_mergeLoop _ _ _ i b

private theorem merge_interesting (h : self.data ≠ []) :
    (self.merge other).2 = true ↔
      ∃ i < self.data.length, ∃ b, other.bit i b = true ∧ self.bit i b = false := by
  rw [merge, if_neg (fun h0 ↦ h (List.length_eq_zero_iff.mp h0))]
  exact (mergeLoop_interesting _ _ _).trans (by simp [bit])

/-- A merge that reports no change makes none. -/
theorem merge_eq_self (h : (self.merge other).2 = false) : (self.merge other).1 = self := by
  unfold merge at h ⊢
  split
  · next hempty =>
    rw [if_pos hempty] at h
    cases h
  · next hne =>
    rw [if_neg hne] at h
    exact congrArg AflMap.mk (mergeLoop_eq_self h)

/-- A bit of the merged map was in one of the two maps. -/
theorem bit_of_bit_merge {i b : ℕ} (h : (self.merge other).1.bit i b = true) :
    self.bit i b = true ∨ other.bit i b = true := by
  by_cases hself : self.data = []
  · rw [merge_of_empty other hself] at h
    exact .inr h
  · rw [bit_merge other hself, Bool.or_eq_true, Bool.and_eq_true] at h
    exact h.imp_right And.right

end Merge

/-! ## A sequence of merges -/

/-- The cumulative map of a sequence. -/
def cumulative (maps : List AflMap) : AflMap := (Machine.run merge new maps).1

/-- What the merges of a sequence report. -/
def reports (maps : List AflMap) : List Bool := (Machine.run merge new maps).2

/-- The maps of a sequence whose merge reported a change. -/
def kept (maps : List AflMap) : List AflMap :=
  ((maps.zip (reports maps)).filter Prod.snd).map Prod.fst

/-- Some map of the list has bit `b` of byte `i`. -/
def AnyBit (maps : List AflMap) (i b : ℕ) : Prop := ∃ m ∈ maps, m.bit i b = true

/-- No coverage is lost by a sequence of merges. -/
structure NoCoverageLost (maps : List AflMap) : Prop where
  /-- The cumulative map is the union. -/
  bit_iff : ∀ i b, (cumulative maps).bit i b = true ↔ AnyBit maps i b
  /-- A merge reports a change exactly when its map has a bit that no earlier map has. -/
  report_iff : ∀ before m after, maps = before ++ m :: after →
    ((merge (cumulative before) m).2 = true ↔ ∃ i b, m.bit i b = true ∧ ¬ AnyBit before i b)
  /-- The maps whose merge reported a change have the same union. -/
  kept_iff : ∀ i b, AnyBit (kept maps) i b ↔ AnyBit maps i b

/-- The first map has a bit, and no later map has one beyond the end of the first. -/
def FirstCovers : List AflMap → Prop
  | [] => True
  | first :: rest =>
    (∃ i b, first.bit i b = true) ∧
      ∀ m ∈ rest, ∀ i b, m.bit i b = true → i < first.data.length

theorem FirstCovers.of_append {before : List AflMap} {m : AflMap}
    (h : FirstCovers (before ++ [m])) : FirstCovers before := by
  cases before with
  | nil => trivial
  | cons first rest => exact ⟨h.1, fun m' hm' ↦ h.2 m' (List.mem_append_left _ hm')⟩

/-- What the cumulative map is once a first map with a bit has been merged. -/
structure Accumulated (maps : List AflMap) (acc : AflMap) : Prop where
  nonempty : maps ≠ [] → acc.data ≠ []
  length_eq : ∀ first rest, maps = first :: rest → acc.data.length = first.data.length
  empty : maps = [] → acc = new
  bit_iff : ∀ i b, acc.bit i b = true ↔ AnyBit maps i b

private theorem data_ne_nil {m : AflMap} (h : ∃ i b, m.bit i b = true) : m.data ≠ [] := by
  rintro hnil
  obtain ⟨i, b, hbit⟩ := h
  rw [bit_of_length_le (by rw [hnil]; exact Nat.zero_le i)] at hbit
  cases hbit

theorem anyBit_append {maps : List AflMap} {m : AflMap} {i b : ℕ} :
    AnyBit (maps ++ [m]) i b ↔ AnyBit maps i b ∨ m.bit i b = true := by
  simp [AnyBit, or_and_right, exists_or]

/-- One merge keeps the invariant. -/
theorem Accumulated.merge {before : List AflMap} {m self : AflMap}
    (hcovers : FirstCovers (before ++ [m])) (h : Accumulated before self) :
    Accumulated (before ++ [m]) (self.merge m).1 := by
  cases before with
  | nil =>
    have hself : self.data = [] := by rw [h.empty rfl, new]
    rw [merge_of_empty m hself]
    -- an empty map takes over the first one as a whole
    refine ⟨fun _ ↦ data_ne_nil hcovers.1, ?_, by simp, by simp [AnyBit]⟩
    intro first rest hcons
    rw [List.nil_append, List.cons.injEq] at hcons
    rw [hcons.1]
  | cons first rest =>
    have hself := h.nonempty (List.cons_ne_nil _ _)
    have hlen := h.length_eq first rest rfl
    refine ⟨?_, ?_, by simp, ?_⟩
    · intro _ hnil
      apply hself
      rw [← List.length_eq_zero_iff, ← length_merge m hself, hnil, List.length_nil]
    · intro first' rest' hcons
      rw [List.cons_append, List.cons.injEq] at hcons
      rw [length_merge m hself, hlen, hcons.1]
    · intro i b
      rw [bit_merge m hself, anyBit_append, Bool.or_eq_true, Bool.and_eq_true, decide_eq_true_eq,
        h.bit_iff]
      -- the zipped loop ends with the shorter map, beyond which the new map has no bit
      refine or_congr_right (and_iff_right_of_imp fun hbit ↦ ?_)
      rw [hlen]
      exact hcovers.2 m (by simp) i b hbit

theorem accumulated {maps : List AflMap} (h : FirstCovers maps) :
    Accumulated maps (cumulative maps) :=
  Machine.run_invariant (P := FirstCovers) (fun _ _ ↦ FirstCovers.of_append)
    ⟨by simp, by simp, fun _ ↦ rfl, by simp [AnyBit, bit, new]⟩
    (fun _ _ _ hcovers ↦ Accumulated.merge hcovers) h

/-- The report of one merge. -/
theorem Accumulated.report_iff {before : List AflMap} {m self : AflMap}
    (hcovers : FirstCovers (before ++ [m])) (h : Accumulated before self) :
    (self.merge m).2 = true ↔ ∃ i b, m.bit i b = true ∧ ¬ AnyBit before i b := by
  cases before with
  | nil =>
    have hself : self.data = [] := by rw [h.empty rfl, new]
    rw [merge_of_empty m hself]
    simpa [AnyBit] using hcovers.1
  | cons first rest =>
    have hself := h.nonempty (List.cons_ne_nil _ _)
    rw [merge_interesting m hself, h.length_eq first rest rfl]
    simp only [← h.bit_iff, Bool.not_eq_true]
    constructor
    · rintro ⟨i, -, b, hnew, hknown⟩
      exact ⟨i, b, hnew, hknown⟩
    · rintro ⟨i, b, hnew, hknown⟩
      exact ⟨i, hcovers.2 m (by simp) i b hnew, b, hnew, hknown⟩

theorem FirstCovers.of_cons {before after : List AflMap} {m : AflMap}
    (h : FirstCovers (before ++ m :: after)) : FirstCovers (before ++ [m]) := by
  cases before with
  | nil => exact ⟨h.1, by simp⟩
  | cons first rest =>
    refine ⟨h.1, fun m' hm' ↦ h.2 m' ?_⟩
    rcases List.mem_append.mp hm' with hrest | hm
    · exact List.mem_append_left _ hrest
    · rw [List.mem_singleton.mp hm]
      exact List.mem_append_right _ (List.mem_cons_self)

/-! ## What is kept -/

private theorem reports_concat (maps : List AflMap) (m : AflMap) :
    reports (maps ++ [m]) = reports maps ++ [((cumulative maps).merge m).2] := by
  rw [reports, Machine.run_concat]
  rfl

private theorem length_reports (maps : List AflMap) : (reports maps).length = maps.length := by
  induction maps using List.reverseRecOn with
  | nil => rfl
  | append_singleton maps m ih =>
    rw [reports_concat, List.length_append, List.length_append, ih]
    rfl

private theorem kept_concat (maps : List AflMap) (m : AflMap) :
    kept (maps ++ [m]) = kept maps ++ if ((cumulative maps).merge m).2 then [m] else [] := by
  unfold kept
  rw [reports_concat, List.zip_append (length_reports maps).symm, List.filter_append,
    List.map_append]
  cases ((cumulative maps).merge m).2 <;> rfl

/-- If the reports are right, then nothing is lost by keeping only the maps that were reported. -/
theorem anyBit_kept {maps : List AflMap} (h : FirstCovers maps) (i b : ℕ) :
    AnyBit (kept maps) i b ↔ AnyBit maps i b := by
  induction maps using List.reverseRecOn with
  | nil => rfl
  | append_singleton maps m ih =>
    have ih := ih h.of_append
    rw [kept_concat, anyBit_append]
    cases hreport : ((cumulative maps).merge m).2 with
    | true => rw [if_pos rfl, anyBit_append, ih]
    | false =>
      rw [if_neg Bool.false_ne_true, List.append_nil, ih]
      refine (or_iff_left_of_imp fun hbit ↦ ?_).symm
      -- a map that was not reported has no bit of its own
      by_contra hnew
      have := ((accumulated h.of_append).report_iff h).mpr ⟨i, b, hbit, hnew⟩
      rw [hreport] at this
      cases this

/-! ## When nothing is lost -/

private theorem noCoverageLost_of_firstCovers {maps : List AflMap} (h : FirstCovers maps) :
    NoCoverageLost maps where
  bit_iff := (accumulated h).bit_iff
  report_iff before m after hmaps := by
    subst hmaps
    exact (accumulated h.of_cons.of_append).report_iff h.of_cons
  kept_iff := anyBit_kept h

/-- Merges never grow a cumulative map that has a byte. -/
theorem length_run {self : AflMap} (h : self.data ≠ []) (maps : List AflMap) :
    (Machine.run AflMap.merge self maps).1.data.length = self.data.length := by
  induction maps generalizing self with
  | nil => rfl
  | cons m maps ih =>
    have hlen := length_merge m h
    have hne : (self.merge m).1.data ≠ [] := by
      intro hnil
      rw [hnil] at hlen
      exact h (List.length_eq_zero_iff.mp hlen.symm)
    rw [Machine.run_cons, ih hne, hlen]

private theorem firstCovers_of_noCoverageLost {maps : List AflMap} (h : NoCoverageLost maps) :
    FirstCovers maps := by
  cases maps with
  | nil => trivial
  | cons first rest =>
    -- the first merge always reports a change
    have hfirst : ∃ i b, first.bit i b = true := by
      obtain ⟨i, b, hbit, -⟩ := (h.report_iff [] first rest rfl).mp rfl
      exact ⟨i, b, hbit⟩
    refine ⟨hfirst, fun m hm i b hbit ↦ ?_⟩
    by_contra hlt
    have hunion := (h.bit_iff i b).mpr ⟨m, List.mem_cons_of_mem _ hm, hbit⟩
    have hlen : (cumulative (first :: rest)).data.length = first.data.length :=
      length_run (data_ne_nil hfirst) rest
    rw [bit_of_length_le (by omega)] at hunion
    cases hunion

/-- Exactly when a sequence of merges loses no coverage. -/
theorem noCoverageLost_iff (maps : List AflMap) : NoCoverageLost maps ↔ FirstCovers maps :=
  ⟨firstCovers_of_noCoverageLost, noCoverageLost_of_firstCovers⟩

/-- A longer second map loses its last byte: the merge reports nothing and the bit is not set. -/
theorem not_noCoverageLost : ¬ ∀ maps : List AflMap, NoCoverageLost maps := by
  intro h
  have hbit := ((h [⟨[1]⟩, ⟨[0, 128]⟩]).bit_iff 1 7).mpr ⟨⟨[0, 128]⟩, by simp, by decide⟩
  exact absurd hbit (by decide)

end AflMap

end Adacc
