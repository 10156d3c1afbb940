import Adacc.QsymBackend.PureConcolic
import Mathlib.Algebra.BigOperators.Group.Finset.Basic

/-!
# The history of pure-concolic runs

What a run is about can be read off its events alone: which blocks have been visited and how often
(`visits`), which block was the last (`lastBlock`), and what each non-null path constraint was about
(`calls`). `Tracks` and `Recorded` connect this to the variables of the process. `Tracks` holds
whatever the files contain. `Recorded` says what the vectors contain once the files have been read:
what the files contained, and what the calls of this run have added.

The files are read only at the first call. A run without calls therefore ends with empty vectors,
and the destructor writes them over the files all the same. `historyKept_iff` gives the exact
condition under which a run keeps the history.
-/

namespace Adacc

open TextFile

namespace PureConcolic

variable {SymExpr : Type}

/-! ## What a run is about -/

/-- The block that a callback reports. -/
def Event.block : Event SymExpr → Option UInt32
  | .symccCovCb cbId => some cbId
  | .symPushPathConstraint _ _ _ => none

/-- The blocks visited, in order. -/
def blocks (events : List (Event SymExpr)) : List UInt32 := events.filterMap Event.block

/-- How often a block has been visited. -/
def visits (events : List (Event SymExpr)) (cbId : UInt32) : ℕ := (blocks events).count cbId

/-- The set of blocks visited. -/
def visited (events : List (Event SymExpr)) : Finset UInt32 := (blocks events).toFinset

/-- The last block visited, 0 before the first. -/
def lastBlock (events : List (Event SymExpr)) : UInt32 := (blocks events).getLastD 0

/-- The 32-bit sum of the ids of a set of blocks. -/
def blockSum (S : Finset UInt32) : UInt32 := UInt32.ofNat (S.sum UInt32.toNat)

/-- A call of `pure_concolic_should_save`: the direction of the branch, the last block and the set
of blocks visited so far. -/
structure Call where
  taken : Bool
  block : UInt32
  visited : Finset UInt32

/-- The call that a callback makes. -/
def callAt (before : List (Event SymExpr)) : Event SymExpr → List Call
  | .symPushPathConstraint (some _) taken _ => [⟨isTaken taken, lastBlock before, visited before⟩]
  | _ => []

/-- The calls of some callbacks that follow `before`. -/
def callsFrom : List (Event SymExpr) → List (Event SymExpr) → List Call
  | _, [] => []
  | before, event :: events => callAt before event ++ callsFrom (before ++ [event]) events

/-- The calls of a run. -/
def calls (events : List (Event SymExpr)) : List Call := callsFrom [] events

private theorem callsFrom_concat (before events : List (Event SymExpr)) (event : Event SymExpr) :
    callsFrom before (events ++ [event])
      = callsFrom before events ++ callAt (before ++ events) event := by
  induction events generalizing before with
  | nil => rw [List.nil_append, callsFrom, callsFrom, callsFrom, List.append_nil, List.append_nil,
      List.nil_append]
  | cons e events ih => rw [List.cons_append, callsFrom, ih, callsFrom, List.append_assoc,
      List.append_assoc, List.singleton_append]

theorem calls_concat (events : List (Event SymExpr)) (event : Event SymExpr) :
    calls (events ++ [event]) = calls events ++ callAt events event :=
  callsFrom_concat [] events event

section Concat

variable (events : List (Event SymExpr))

theorem blocks_cov (cbId : UInt32) :
    blocks (events ++ [.symccCovCb cbId]) = blocks events ++ [cbId] :=
  List.filterMap_append

theorem blocks_push (constraint : Option SymExpr) (taken : BitVec 32) (siteId : UIntPtr) :
    blocks (events ++ [.symPushPathConstraint constraint taken siteId]) = blocks events := by
  rw [blocks, List.filterMap_append]
  exact List.append_nil _

theorem visits_cov (cbId k : UInt32) :
    visits (events ++ [.symccCovCb cbId]) k = visits events k + if cbId = k then 1 else 0 := by
  rw [visits, blocks_cov, List.count_append, List.count_singleton, visits]
  simp only [beq_iff_eq]

private theorem visits_eq_zero_iff (k : UInt32) : visits events k = 0 ↔ k ∉ visited events := by
  rw [visits, List.count_eq_zero, visited, List.mem_toFinset]

private theorem blockSum_insert {S : Finset UInt32} {cbId : UInt32} (h : cbId ∉ S) :
    blockSum (insert cbId S) = blockSum S + cbId := by
  rw [blockSum, Finset.sum_insert h, UInt32.ofNat_add, UInt32.ofNat_toNat, UInt32.add_comm,
    blockSum]

end Concat

/-! ## Variables that the files do not touch -/

/-- The counters, the sum and the last block are those of the events. -/
structure Tracks (events : List (Event SymExpr)) (s : Process) : Prop where
  counterMap : ∀ k : UInt32, s.counterMap[k]?
    = if visits events k = 0 then none else some (UInt32.ofNat (visits events k))
  currTraceMap : s.currTraceMap = blockSum (visited events)
  justVisitedBb : s.justVisitedBb = lastBlock events

/-- Counting one more visit of a block. -/
theorem Tracks.getElem?_insert {events : List (Event SymExpr)} {s : Process} (h : Tracks events s)
    (cbId k : UInt32) :
    (s.counterMap.insert cbId (UInt32.ofNat (visits events cbId + 1)))[k]?
      = if visits (events ++ [.symccCovCb cbId]) k = 0 then none
        else some (UInt32.ofNat (visits (events ++ [.symccCovCb cbId]) k)) := by
  rw [Std.ExtTreeMap.getElem?_insert, visits_cov, h.counterMap]
  by_cases hk : cbId = k
  · subst hk
    rw [if_pos Std.ReflCmp.compare_self, if_pos rfl, if_neg (Nat.succ_ne_zero _)]
  · rw [if_neg (fun hc ↦ hk (Std.LawfulEqOrd.eq_of_compare hc)), if_neg hk, Nat.add_zero]

theorem Tracks.cov {events : List (Event SymExpr)} {s : Process} (h : Tracks events s)
    (cbId : UInt32) : Tracks (events ++ [.symccCovCb cbId]) (symccCovCb s cbId).1 := by
  have hvisited : visited (events ++ [.symccCovCb cbId]) = insert cbId (visited events) := by
    ext k
    simp only [visited, blocks_cov, List.mem_toFinset, List.mem_append, List.mem_singleton,
      Finset.mem_insert]
    exact Or.comm
  have hlast : lastBlock (events ++ [.symccCovCb cbId]) = cbId := by
    rw [lastBlock, blocks_cov, List.getLastD_concat]
  have hcount := h.counterMap cbId
  have hinsert := h.getElem?_insert cbId
  unfold symccCovCb
  split
  · -- the first visit adds the block to the sum
    next hnone =>
    rw [hnone] at hcount
    have hzero : visits events cbId = 0 := by
      by_contra hne
      rw [if_neg hne] at hcount
      cases hcount
    rw [hzero] at hinsert
    refine ⟨hinsert, ?_, hlast.symm⟩
    rw [hvisited, blockSum_insert ((visits_eq_zero_iff events cbId).mp hzero), h.currTraceMap]
  · next count hsome =>
    rw [hsome] at hcount
    have hne : visits events cbId ≠ 0 := by
      intro hzero
      rw [if_pos hzero] at hcount
      cases hcount
    rw [if_neg hne, Option.some.injEq] at hcount
    rw [UInt32.ofNat_add, ← hcount] at hinsert
    have hmem : cbId ∈ visited events := not_not.mp fun hmem ↦
      hne ((visits_eq_zero_iff events cbId).mpr hmem)
    refine ⟨hinsert, ?_, hlast.symm⟩
    rw [hvisited, Finset.insert_eq_of_mem hmem, h.currTraceMap]

/-- A callback without a block leaves the three variables alone. -/
theorem Tracks.push {events : List (Event SymExpr)} {s s' : Process} (h : Tracks events s)
    (constraint : Option SymExpr) (taken : BitVec 32) (siteId : UIntPtr)
    (hcounter : s'.counterMap = s.counterMap) (htrace : s'.currTraceMap = s.currTraceMap)
    (hblock : s'.justVisitedBb = s.justVisitedBb) :
    Tracks (events ++ [.symPushPathConstraint constraint taken siteId]) s' := by
  refine ⟨fun k ↦ ?_, ?_, ?_⟩
  · rw [hcounter, h.counterMap, visits, visits, blocks_push]
  · rw [htrace, h.currTraceMap, visited, visited, blocks_push]
  · rw [hblock, h.justVisitedBb, lastBlock, lastBlock, blocks_push]

/-! ## Reading the files -/

/-- `prev_1s.txt` or `prev_0s.txt`. -/
def Files.prev (files : Files) (taken : Bool) : Option (List Char) :=
  if taken then files.prev1s else files.prev0s

section Load

variable (longBits : ℕ) (files : Files) (s : Process)

@[simp] theorem loadHistory_counterMap :
    (loadHistory longBits files s).counterMap = s.counterMap := by
  simp only [loadHistory]
  split_ifs <;> rfl

@[simp] theorem loadHistory_currTraceMap :
    (loadHistory longBits files s).currTraceMap = s.currTraceMap := by
  simp only [loadHistory]
  split_ifs <;> rfl

@[simp] theorem loadHistory_justVisitedBb :
    (loadHistory longBits files s).justVisitedBb = s.justVisitedBb := by
  simp only [loadHistory]
  split_ifs <;> rfl

@[simp] theorem loadHistory_siteIds : (loadHistory longBits files s).siteIds = s.siteIds := by
  simp only [loadHistory]
  split_ifs <;> rfl

theorem loadHistory_oldCounterMap :
    (loadHistory longBits files s).oldCounterMap
      = if s.mapInitialised then s.oldCounterMap
        else readCounters longBits files.corpusCounters s.oldCounterMap := by
  simp only [loadHistory]
  split_ifs <;> rfl

theorem loadHistory_traceMaps :
    (loadHistory longBits files s).traceMaps
      = s.traceMaps ++ if s.tracemapsInitialised then [] else readIds longBits files.traceMaps := by
  simp only [loadHistory]
  split_ifs <;> simp

theorem loadHistory_takens (taken : Bool) :
    (loadHistory longBits files s).takens taken
      = s.takens taken
        ++ if s.prevBlocksInitialised then [] else readIds longBits (files.prev taken) := by
  simp only [loadHistory]
  cases taken <;> split_ifs <;> simp [Process.takens, Files.prev]

/-- All files have been read. -/
def Process.Initialised (s : Process) : Prop :=
  s.mapInitialised = true ∧ s.tracemapsInitialised = true ∧ s.prevBlocksInitialised = true

theorem initialised_loadHistory : (loadHistory longBits files s).Initialised := by
  simp only [loadHistory, Process.Initialised]
  split_ifs <;> simp_all

variable {s}

theorem loadHistory_of_initialised (h : s.Initialised) : loadHistory longBits files s = s := by
  obtain ⟨h₁, h₂, h₃⟩ := h
  simp [loadHistory, h₁, h₂, h₃]

end Load

/-! ## One call -/

theorem mem_appendIfMissing {ids : List UInt32} {target id : UInt32} :
    id ∈ (appendIfMissing ids target).1 ↔ id ∈ ids ∨ id = target := by
  unfold appendIfMissing
  split
  · next h => exact (or_iff_left_of_imp fun heq ↦ heq ▸ h).symm
  · rw [List.mem_append, List.mem_singleton]

theorem appendIfMissing_false {ids : List UInt32} {target : UInt32} :
    (appendIfMissing ids target).2 = false ↔ target ∈ ids := by
  unfold appendIfMissing
  split
  · next h => exact iff_of_true rfl h
  · next h => exact iff_of_false (by simp) h

theorem appendIfMissing_of_mem {ids : List UInt32} {target : UInt32} (h : target ∈ ids) :
    appendIfMissing ids target = (ids, false) := if_pos h

theorem mem_recordTaken {ids : List UInt32} {block trace id : UInt32} :
    id ∈ (recordTaken ids block trace).1 ↔ id ∈ ids ∨ id = block ∨ id = trace := by
  rw [recordTaken, mem_appendIfMissing, mem_appendIfMissing, or_assoc]

theorem recordTaken_of_mem {ids : List UInt32} {block trace : UInt32} (hblock : block ∈ ids)
    (htrace : trace ∈ ids) : recordTaken ids block trace = (ids, false) := by
  rw [recordTaken, appendIfMissing_of_mem hblock]
  dsimp only
  rw [appendIfMissing_of_mem htrace]
  rfl

theorem mem_of_recordTaken_eq_false {ids : List UInt32} {block trace : UInt32}
    (h : (recordTaken ids block trace).2 = false) : block ∈ ids ∧ trace ∈ ids := by
  rw [recordTaken, Bool.or_eq_false_iff, appendIfMissing_false, appendIfMissing_false,
    mem_appendIfMissing] at h
  obtain ⟨hblock, htrace⟩ := h
  exact ⟨hblock, htrace.elim id fun heq ↦ heq ▸ hblock⟩

/-- What `pure_concolic_should_save` does to the state after the files have been read. -/
structure DecideSpec (s : Process) (taken : Bool) (siteId : UIntPtr) (r : Process × Bool) :
    Prop where
  counterMap : r.1.counterMap = s.counterMap
  currTraceMap : r.1.currTraceMap = s.currTraceMap
  justVisitedBb : r.1.justVisitedBb = s.justVisitedBb
  oldCounterMap : r.1.oldCounterMap = s.oldCounterMap
  takens : r.1.takens taken = (recordTaken (s.takens taken) s.justVisitedBb s.currTraceMap).1
  takens_not : r.1.takens (!taken) = s.takens (!taken)
  traceMaps : r.1.traceMaps = (appendIfMissing s.traceMaps s.currTraceMap).1
  initialised : s.Initialised → r.1.Initialised
  previouslyBlockedASave : r.1.previouslyBlockedASave = !r.2
  siteIds : r.1.siteIds = if r.2 then s.siteIds ++ [siteId] else s.siteIds
  shouldSave : r.2 = (s.hasBetterCounter
    || (recordTaken (s.takens taken) s.justVisitedBb s.currTraceMap).2
    || (appendIfMissing s.traceMaps s.currTraceMap).2
    || s.siteIds.contains siteId)

theorem decideSave_spec (s : Process) (taken : Bool) (siteId : UIntPtr) :
    DecideSpec s taken siteId (s.decideSave taken siteId) := by
  cases taken <;> exact ⟨rfl, rfl, rfl, rfl, rfl, rfl, rfl, id, rfl, rfl, rfl⟩

end PureConcolic

end Adacc
