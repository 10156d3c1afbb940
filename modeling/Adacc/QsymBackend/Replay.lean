import Adacc.QsymBackend.Persistence

/-!
# Replaying a run

A run leaves behind everything that could make the same run interesting. `Replays` is the invariant
of the second execution: what it has read from the files already contains whatever it looks for, so
it adds nothing, saves nothing, and its vectors stay what they were in the files. That the second
execution looks for the same things as the first is `Tracks`, which does not depend on the files.
-/

namespace Adacc

open TextFile

namespace PureConcolic

variable {SymExpr : Type}

/-! ## Initial segments of a run -/

private theorem callsFrom_append (before first second : List (Event SymExpr)) :
    callsFrom before (first ++ second)
      = callsFrom before first ++ callsFrom (before ++ first) second := by
  induction first generalizing before with
  | nil => rw [List.nil_append, List.append_nil, callsFrom, List.nil_append]
  | cons e first ih => rw [List.cons_append, callsFrom, callsFrom, ih, List.append_assoc,
      List.append_assoc, List.singleton_append]

theorem callAt_subset {before events : List (Event SymExpr)} {event : Event SymExpr}
    (h : before ++ [event] <+: events) : callAt before event ⊆ calls events := by
  obtain ⟨rest, rfl⟩ := h
  rw [calls, callsFrom_append, ← calls, calls_concat]
  exact fun call hcall ↦ List.mem_append_left _ (List.mem_append_right _ hcall)

theorem visits_le {before events : List (Event SymExpr)} (h : before <+: events) (k : UInt32) :
    visits before k ≤ visits events k := by
  obtain ⟨rest, rfl⟩ := h
  rw [visits, visits, blocks, blocks, List.filterMap_append, List.count_append]
  exact Nat.le_add_right _ _

theorem isPrefixOf_concat {before events : List (Event SymExpr)} {event : Event SymExpr}
    (h : before ++ [event] <+: events) : before <+: events :=
  (List.prefix_append before [event]).trans h

/-! ## The files after the first execution -/

section Files

variable (files : Files) (events : List (Event SymExpr))

variable {events}

/-- Every counter that an initial segment of the run reaches is in the file, at least as large. -/
theorem readCounters_ge (hlt : ∀ cbId, visits events cbId < 2 ^ 32)
    {before : List (Event SymExpr)} (hbefore : before <+: events) {s : Process}
    (hs : Tracks before s) {k v : UInt32} (hv : s.counterMap[k]? = some v) :
    ∃ v', (readCounters 64 (runProcess 64 files events).corpusCounters ∅)[k]? = some v' ∧
      v ≤ v' := by
  have hcounter := hs.counterMap k
  rw [hv] at hcounter
  have hne : visits before k ≠ 0 := by
    intro hzero
    rw [if_pos hzero] at hcounter
    cases hcounter
  have hle := visits_le hbefore k
  rw [if_neg hne, Option.some.injEq] at hcounter
  have hfinal := (invariant_after 64 files events).tracks.counterMap k
  rw [if_neg (by omega)] at hfinal
  obtain ⟨v', hv', hge⟩ := getElem?_mergeCounters (after 64 files events).oldCounterMap hfinal
  refine ⟨v', by rw [readCounters_runProcess, hv'], UInt32.le_trans ?_ hge⟩
  rw [hcounter, UInt32.le_iff_toNat_le, UInt32.toNat_ofNat', UInt32.toNat_ofNat',
    Nat.mod_eq_of_lt (hle.trans_lt (hlt k)), Nat.mod_eq_of_lt (hlt k)]
  exact hle

/-- What a call of the run looks for is in the files. -/
theorem mem_files_of_call {call : Call} (hcall : call ∈ calls events) :
    call.block ∈ readIds 64 ((runProcess 64 files events).prev call.taken) ∧
      blockSum call.visited ∈ readIds 64 ((runProcess 64 files events).prev call.taken) ∧
      blockSum call.visited ∈ readIds 64 (runProcess 64 files events).traceMaps := by
  have hrecorded := (invariant_after 64 files events).recorded
  have hload := loadHistory_of_initialised 64 files
    (hrecorded.initialised (List.ne_nil_of_mem hcall))
  have htakens := hrecorded.mem_takens call.taken
  have htraces := hrecorded.mem_traceMaps
  rw [hload] at htakens htraces
  rw [readIds_runProcess, readIds_traceMaps_runProcess, htakens, htakens, htraces]
  exact ⟨.inr ⟨call, hcall, rfl, .inl rfl⟩, .inr ⟨call, hcall, rfl, .inr rfl⟩,
    .inr ⟨call, hcall, rfl⟩⟩

end Files

/-! ## The second execution -/

/-- The invariant of the second execution, which starts from the files `files'`. -/
structure Replays (files' : Files) (before : List (Event SymExpr)) (s : Process) : Prop where
  invariant : Invariant 64 files' before s
  takens : ∀ taken, (loadHistory 64 files' s).takens taken = readIds 64 (files'.prev taken)
  traceMaps : (loadHistory 64 files' s).traceMaps = readIds 64 files'.traceMaps
  siteIds : s.siteIds = []
  blocked : s.previouslyBlockedASave = true → calls before ≠ []

/-- The calls to the solver that save nothing. -/
def SolverCall.SavesNothing (c : SolverCall) : Prop := c ≠ .checkAndSave ∧ c ≠ .addJcc true

theorem Replays.init (files' : Files) : Replays files' ([] : List (Event SymExpr)) .init where
  invariant := .init 64 files'
  takens taken := by
    rw [loadHistory_takens]
    cases taken <;> rfl
  traceMaps := by
    rw [loadHistory_traceMaps]
    rfl
  siteIds := rfl
  blocked h := nomatch h

section Step

variable {files : Files} {events before : List (Event SymExpr)} {s : Process}

/-- A block of the run has a counter in the file, so meeting it again triggers nothing. -/
theorem Replays.symccCovCb_eq_false (hlt : ∀ cbId, visits events cbId < 2 ^ 32) {cbId : UInt32}
    (hbefore : before ++ [.symccCovCb cbId] <+: events)
    (h : Replays (runProcess 64 files events) before s) : (symccCovCb s cbId).2 = false := by
  unfold symccCovCb
  split
  · rcases hblocked : s.previouslyBlockedASave with - | -
    · exact Bool.and_false _
    · -- a save was blocked in a call, which has read the files
      have hload := loadHistory_of_initialised 64 (runProcess 64 files events)
        (h.invariant.recorded.initialised (h.blocked hblocked))
      have hold := h.invariant.recorded.oldCounterMap
      rw [hload] at hold
      have hvisited : visits (before ++ [.symccCovCb cbId]) cbId ≠ 0 := by
        rw [visits_cov, if_pos rfl]
        exact Nat.succ_ne_zero _
      have htracks := (h.invariant.step (.symccCovCb cbId)).tracks
      have hcounter := htracks.counterMap cbId
      rw [if_neg hvisited] at hcounter
      obtain ⟨v', hv', -⟩ := readCounters_ge files hlt hbefore htracks hcounter
      have hcontains : s.oldCounterMap.contains cbId = true := by
        rw [hold, Std.ExtTreeMap.contains_eq_isSome_getElem?, hv']
        rfl
      rw [hcontains]
      rfl
  · rfl

theorem Replays.cov (hlt : ∀ cbId, visits events cbId < 2 ^ 32) {cbId : UInt32}
    (hbefore : before ++ [.symccCovCb cbId] <+: events)
    (h : Replays (runProcess 64 files events) before s) :
    Replays (runProcess 64 files events) (before ++ [.symccCovCb cbId])
        (step 64 (runProcess 64 files events) s (.symccCovCb cbId : Event SymExpr)).1 ∧
      (step 64 (runProcess 64 files events) s
        (.symccCovCb cbId : Event SymExpr)).2.SavesNothing := by
  have hinv := h.invariant.step (.symccCovCb cbId)
  have hcalls : calls (before ++ [.symccCovCb cbId]) = calls before := by
    rw [calls_concat]
    exact List.append_nil _
  obtain ⟨counterMap, currTraceMap, justVisitedBb, heq⟩ := symccCovCb_eq s cbId
  have hstate : (step 64 (runProcess 64 files events) s (.symccCovCb cbId : Event SymExpr)).1
      = { s with counterMap, currTraceMap, justVisitedBb } := heq
  refine ⟨⟨hinv, fun taken ↦ ?_, ?_, ?_, ?_⟩, ?_⟩
  · rw [hstate, ← h.takens, loadHistory_takens, loadHistory_takens]
    rfl
  · rw [hstate, ← h.traceMaps, loadHistory_traceMaps, loadHistory_traceMaps]
  · rw [hstate]
    exact h.siteIds
  · rw [hstate, hcalls]
    exact h.blocked
  · rw [step_cov, h.symccCovCb_eq_false hlt hbefore]
    exact ⟨by simp, by simp⟩

/-- A call of the run finds its block and its set of blocks among the ids of its direction. -/
theorem Replays.recordTaken_eq {c : SymExpr} {taken : BitVec 32} {siteId : UIntPtr}
    (hbefore : before ++ [.symPushPathConstraint (some c) taken siteId] <+: events)
    (h : Replays (runProcess 64 files events) before s) :
    recordTaken ((loadHistory 64 (runProcess 64 files events) s).takens (isTaken taken))
        (loadHistory 64 (runProcess 64 files events) s).justVisitedBb
        (loadHistory 64 (runProcess 64 files events) s).currTraceMap
      = (readIds 64 ((runProcess 64 files events).prev (isTaken taken)), false) := by
  obtain ⟨hblock, htrace, -⟩ := mem_files_of_call files (callAt_subset hbefore List.mem_cons_self)
  rw [h.takens, loadHistory_justVisitedBb, loadHistory_currTraceMap,
    h.invariant.tracks.justVisitedBb, h.invariant.tracks.currTraceMap]
  exact recordTaken_of_mem hblock htrace

/-- The same for the sets of blocks. -/
theorem Replays.appendIfMissing_eq {c : SymExpr} {taken : BitVec 32} {siteId : UIntPtr}
    (hbefore : before ++ [.symPushPathConstraint (some c) taken siteId] <+: events)
    (h : Replays (runProcess 64 files events) before s) :
    appendIfMissing (loadHistory 64 (runProcess 64 files events) s).traceMaps
        (loadHistory 64 (runProcess 64 files events) s).currTraceMap
      = (readIds 64 (runProcess 64 files events).traceMaps, false) := by
  obtain ⟨-, -, htraces⟩ := mem_files_of_call files (callAt_subset hbefore List.mem_cons_self)
  rw [h.traceMaps, loadHistory_currTraceMap, h.invariant.tracks.currTraceMap]
  exact appendIfMissing_of_mem htraces

/-- No counter of the second execution exceeds the one that the first has left. -/
theorem Replays.hasBetterCounter_eq_false (hlt : ∀ cbId, visits events cbId < 2 ^ 32)
    (hbefore : before <+: events) (h : Replays (runProcess 64 files events) before s) :
    (loadHistory 64 (runProcess 64 files events) s).hasBetterCounter = false := by
  rw [Process.hasBetterCounter, ← Bool.not_eq_true, List.any_eq_true]
  rintro ⟨⟨k, v⟩, hkv, hbetter⟩
  rw [Std.ExtTreeMap.mem_toList_iff_getElem?_eq_some, loadHistory_counterMap] at hkv
  obtain ⟨v', hv', hge⟩ := readCounters_ge files hlt hbefore h.invariant.tracks hkv
  rw [h.invariant.recorded.oldCounterMap, hv'] at hbetter
  exact absurd (of_decide_eq_true hbetter) (UInt32.not_lt.mpr hge)

/-- A call of the run finds everything in the files. -/
theorem Replays.call (hlt : ∀ cbId, visits events cbId < 2 ^ 32) {c : SymExpr} {taken : BitVec 32}
    {siteId : UIntPtr}
    (hbefore : before ++ [.symPushPathConstraint (some c) taken siteId] <+: events)
    (h : Replays (runProcess 64 files events) before s) :
    Replays (runProcess 64 files events)
        (before ++ [.symPushPathConstraint (some c) taken siteId])
        (step 64 (runProcess 64 files events) s (.symPushPathConstraint (some c) taken siteId)).1 ∧
      (step 64 (runProcess 64 files events) s
        (.symPushPathConstraint (some c) taken siteId)).2.SavesNothing := by
  have hrecord := h.recordTaken_eq hbefore
  have happend := h.appendIfMissing_eq hbefore
  have hbetter := h.hasBetterCounter_eq_false hlt (isPrefixOf_concat hbefore)
  set files' := runProcess 64 files events
  have hinv := h.invariant.step (.symPushPathConstraint (some c) taken siteId)
  have hspec := decideSave_spec (loadHistory 64 files' s) (isTaken taken) siteId
  rw [← pureConcolicShouldSave] at hspec
  have hinit := hspec.initialised (initialised_loadHistory 64 files' s)
  have hsave : (pureConcolicShouldSave 64 files' s taken siteId).2 = false := by
    rw [hspec.shouldSave, hrecord, happend, hbetter, loadHistory_siteIds, h.siteIds]
    rfl
  have htakens := hspec.takens
  have htakens_not := hspec.takens_not
  have htraceMaps := hspec.traceMaps
  have hsiteIds := hspec.siteIds
  rw [hrecord] at htakens
  rw [h.takens] at htakens_not
  rw [happend] at htraceMaps
  rw [hsave, if_neg Bool.false_ne_true, loadHistory_siteIds, h.siteIds] at hsiteIds
  refine ⟨⟨hinv, fun taken' ↦ ?_, ?_, hsiteIds, fun _ ↦ ?_⟩, ?_⟩
  · rw [step_call, loadHistory_of_initialised 64 files' hinit]
    rcases Bool.eq_or_eq_not taken' (isTaken taken) with rfl | rfl
    · exact htakens
    · exact htakens_not
  · rw [step_call, loadHistory_of_initialised 64 files' hinit]
    exact htraceMaps
  · rw [calls_concat]
    simp [callAt]
  · rw [step_call, hsave]
    exact ⟨by simp, by simp⟩

/-- Every callback of the second execution keeps the invariant and saves nothing. -/
theorem Replays.step (hlt : ∀ cbId, visits events cbId < 2 ^ 32) {event : Event SymExpr}
    (hbefore : before ++ [event] <+: events)
    (h : Replays (runProcess 64 files events) before s) :
    Replays (runProcess 64 files events) (before ++ [event])
        (step 64 (runProcess 64 files events) s event).1 ∧
      (step 64 (runProcess 64 files events) s event).2.SavesNothing := by
  match event with
  | .symccCovCb cbId => exact h.cov hlt hbefore
  | .symPushPathConstraint none taken siteId =>
    have hcalls : calls (before ++ [.symPushPathConstraint none taken siteId]) = calls before := by
      rw [calls_concat]
      exact List.append_nil _
    refine ⟨⟨h.invariant.step _, h.takens, h.traceMaps, h.siteIds, ?_⟩, ?_⟩
    · rw [hcalls]
      exact h.blocked
    · exact ⟨by simp [PureConcolic.step], by simp [PureConcolic.step]⟩
  | .symPushPathConstraint (some c) taken siteId => exact h.call hlt hbefore

end Step

/-- Merging counters into a map that has them all, at least as large, changes nothing. -/
theorem mergeCounters_of_le {counterMap old : CounterMap}
    (h : ∀ k v : UInt32, counterMap[k]? = some v → ∃ v', old[k]? = some v' ∧ v ≤ v') :
    mergeCounters counterMap old = old := by
  have hentries : ∀ entries : List (UInt32 × UInt32),
      (∀ entry ∈ entries, ∃ v', old[entry.1]? = some v' ∧ entry.2 ≤ v') →
        entries.foldl mergeCounter old = old := by
    intro entries
    induction entries with
    | nil => exact fun _ ↦ rfl
    | cons entry entries ih =>
      intro hall
      obtain ⟨⟨v', hv', hge⟩, hrest⟩ := List.forall_mem_cons.mp hall
      have hentry : mergeCounter old entry = old := by
        rw [mergeCounter, hv']
        exact if_neg (UInt32.not_lt.mpr hge)
      rw [List.foldl_cons, hentry, ih hrest]
  refine hentries _ fun entry hentry ↦ h entry.1 entry.2 ?_
  exact Std.ExtTreeMap.mem_toList_iff_getElem?_eq_some.mp hentry

theorem Tracks.counterMap_unique {events : List (Event SymExpr)} {s s' : Process}
    (h : Tracks events s) (h' : Tracks events s') : s.counterMap = s'.counterMap :=
  Std.ExtTreeMap.ext_getElem? fun k ↦ (h.counterMap k).trans (h'.counterMap k).symm

/-- The invariant of the second execution holds throughout. -/
theorem replays_after (files : Files) {events : List (Event SymExpr)}
    (hlt : ∀ cbId, visits events cbId < 2 ^ 32) :
    Replays (runProcess 64 files events) events (after 64 (runProcess 64 files events) events) :=
  Machine.run_invariant (P := (· <+: events)) (fun _ _ ↦ isPrefixOf_concat) (.init _)
    (fun _ _ _ hbefore h ↦ (h.step hlt hbefore).1) List.prefix_rfl

private theorem runProcess_runProcess (files : Files) {events : List (Event SymExpr)}
    (hlt : ∀ cbId, visits events cbId < 2 ^ 32) :
    runProcess 64 (runProcess 64 files events) events = runProcess 64 files events := by
  set files' := runProcess 64 files events with hfiles'
  have hfirst := invariant_after 64 files events
  have hsecond := replays_after files hlt
  rw [← hfiles'] at hsecond
  have hcounterMap := hsecond.invariant.tracks.counterMap_unique hfirst.tracks
  -- both executions end with the same vectors and the same merged counters
  have hend :
      (∀ taken, (after 64 files' events).takens taken = (after 64 files events).takens taken) ∧
      (after 64 files' events).traceMaps = (after 64 files events).traceMaps ∧
      mergeCounters (after 64 files' events).counterMap (after 64 files' events).oldCounterMap
        = mergeCounters (after 64 files events).counterMap
            (after 64 files events).oldCounterMap := by
    by_cases hcalls : calls events = []
    · obtain ⟨hold, htakens, htraces⟩ := hfirst.recorded.fresh hcalls
      obtain ⟨hold', htakens', htraces'⟩ := hsecond.invariant.recorded.fresh hcalls
      refine ⟨fun taken ↦ by rw [htakens, htakens'], by rw [htraces, htraces'], ?_⟩
      rw [hold, hold', hcounterMap]
    · have hload := loadHistory_of_initialised 64 files'
        (hsecond.invariant.recorded.initialised hcalls)
      have htakens := hsecond.takens
      have htraces := hsecond.traceMaps
      have hold := hsecond.invariant.recorded.oldCounterMap
      rw [hload] at htakens htraces hold
      refine ⟨fun taken ↦ ?_, ?_, ?_⟩
      · rw [htakens, hfiles', readIds_runProcess]
      · rw [htraces, hfiles', readIds_traceMaps_runProcess]
      · rw [mergeCounters_of_le, hold, hfiles', readCounters_runProcess]
        intro k v hv
        rw [hold]
        exact readCounters_ge files hlt List.prefix_rfl hsecond.invariant.tracks hv
  obtain ⟨htakens, htraces, hmerge⟩ := hend
  have h0 := htakens false
  have h1 := htakens true
  simp only [Process.takens, Bool.false_eq_true, if_false, if_true] at h0 h1
  show dtorRuntime (after 64 files' events) = dtorRuntime (after 64 files events)
  rw [dtorRuntime, dtorRuntime, hmerge, h0, h1, htraces]

/-- Executing a run again, from the files that it has left, saves nothing and leaves the files as
they are. -/
theorem replay_saves_nothing (files : Files) (events : List (Event SymExpr))
    (hlt : ∀ cbId, visits events cbId < 2 ^ 32) :
    (∀ c ∈ solverCalls 64 (runProcess 64 files events) events,
        c ≠ .checkAndSave ∧ c ≠ .addJcc true) ∧
      runProcess 64 (runProcess 64 files events) events = runProcess 64 files events :=
  ⟨Machine.run_answers (P := (· <+: events)) (fun _ _ ↦ isPrefixOf_concat)
    (Replays.init (runProcess 64 files events)) (fun _ _ _ hbefore h ↦ h.step hlt hbefore)
    List.prefix_rfl, runProcess_runProcess files hlt⟩

/-- Two blocks, a branch, and the first block again. -/
theorem replay_saves_nothing_branch :
    (∀ c ∈ solverCalls 64 (runProcess 64 .empty
        [.symccCovCb 1, .symccCovCb 2, .symPushPathConstraint (some ()) 1 7, .symccCovCb 1])
        [.symccCovCb 1, .symccCovCb 2, .symPushPathConstraint (some ()) 1 7, .symccCovCb 1],
        c ≠ .checkAndSave ∧ c ≠ .addJcc true) ∧
      runProcess 64 (runProcess 64 .empty
          [.symccCovCb 1, .symccCovCb 2, .symPushPathConstraint (some ()) 1 7, .symccCovCb 1])
          [.symccCovCb 1, .symccCovCb 2, .symPushPathConstraint (some ()) 1 7, .symccCovCb 1]
        = runProcess 64 .empty
          [.symccCovCb 1, .symccCovCb 2, .symPushPathConstraint (some ()) 1 7, .symccCovCb 1] :=
  replay_saves_nothing .empty _ fun cbId ↦ List.count_le_length.trans_lt (by decide)

end PureConcolic

end Adacc
