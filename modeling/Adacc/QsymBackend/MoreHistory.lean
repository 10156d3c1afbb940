import Adacc.QsymBackend.History

/-!
# More history never saves more

Two runs with the same callbacks start from two sets of files, the second of which contains the
first. The two processes then hold different vectors and decide differently, so later calls meet
different states. `Knows` is the relation between them that every callback keeps: whatever the first
process would find, the second would find too, and the second has saved at no site at which the
first has not. The last part runs the other way round than the rest, because a site that has been
saved once is saved again; it is the earlier decisions themselves that keep it.
-/

namespace Adacc

namespace PureConcolic

variable {SymExpr : Type}

/-- Every key of `counters` is one of `counters'`, with an at least equal count. -/
def CountersLe (counters counters' : CounterMap) : Prop :=
  ∀ k v : UInt32, counters[k]? = some v → ∃ v', counters'[k]? = some v' ∧ v ≤ v'

/-- The history `files'` contains the history `files`. -/
structure Files.Contained (longBits : ℕ) (files files' : Files) : Prop where
  counters : CountersLe (readCounters longBits files.corpusCounters ∅)
    (readCounters longBits files'.corpusCounters ∅)
  prev : ∀ taken, readIds longBits (files.prev taken) ⊆ readIds longBits (files'.prev taken)
  traceMaps : readIds longBits files.traceMaps ⊆ readIds longBits files'.traceMaps

/-- The second process knows whatever the first one knows. -/
structure Knows (longBits : ℕ) (files files' : Files) (s s' : Process) : Prop where
  counterMap : s'.counterMap = s.counterMap
  currTraceMap : s'.currTraceMap = s.currTraceMap
  justVisitedBb : s'.justVisitedBb = s.justVisitedBb
  oldCounterMap : CountersLe (loadHistory longBits files s).oldCounterMap
    (loadHistory longBits files' s').oldCounterMap
  takens : ∀ taken, (loadHistory longBits files s).takens taken
    ⊆ (loadHistory longBits files' s').takens taken
  traceMaps : (loadHistory longBits files s).traceMaps ⊆ (loadHistory longBits files' s').traceMaps
  siteIds : s'.siteIds ⊆ s.siteIds

variable {longBits : ℕ} {files files' : Files}

theorem Knows.init (h : files.Contained longBits files') :
    Knows longBits files files' .init .init where
  counterMap := rfl
  currTraceMap := rfl
  justVisitedBb := rfl
  oldCounterMap := by
    rw [loadHistory_oldCounterMap, loadHistory_oldCounterMap]
    exact h.counters
  takens taken := by
    rw [loadHistory_takens, loadHistory_takens]
    cases taken
    · exact h.prev false
    · exact h.prev true
  traceMaps := by
    rw [loadHistory_traceMaps, loadHistory_traceMaps]
    exact h.traceMaps
  siteIds := List.Subset.refl _

/-! ## What is found -/

private theorem hasBetterCounter_anti {s s' : Process} (hcounter : s'.counterMap = s.counterMap)
    (hold : CountersLe s.oldCounterMap s'.oldCounterMap) (h : s'.hasBetterCounter = true) :
    s.hasBetterCounter = true := by
  rw [Process.hasBetterCounter, List.any_eq_true] at h ⊢
  obtain ⟨entry, hentry, hbetter⟩ := h
  refine ⟨entry, hcounter ▸ hentry, ?_⟩
  cases hv : s.oldCounterMap[entry.1]? with
  | none => rfl
  | some v =>
    -- a count that beats the larger history beats the smaller one
    obtain ⟨v', hv', hle⟩ := hold entry.1 v hv
    rw [hv'] at hbetter
    exact decide_eq_true (UInt32.lt_of_le_of_lt hle (of_decide_eq_true hbetter))

private theorem appendIfMissing_anti {ids ids' : List UInt32} (hsub : ids ⊆ ids') {target : UInt32}
    (h : (appendIfMissing ids' target).2 = true) : (appendIfMissing ids target).2 = true := by
  by_contra hfound
  have hmem := hsub (appendIfMissing_false.mp (Bool.eq_false_of_not_eq_true hfound))
  rw [appendIfMissing_of_mem hmem] at h
  cases h

private theorem recordTaken_anti {ids ids' : List UInt32} (hsub : ids ⊆ ids') {block trace : UInt32}
    (h : (recordTaken ids' block trace).2 = true) : (recordTaken ids block trace).2 = true := by
  by_contra hfound
  obtain ⟨hblock, htrace⟩ := mem_of_recordTaken_eq_false (Bool.eq_false_of_not_eq_true hfound)
  rw [recordTaken_of_mem (hsub hblock) (hsub htrace)] at h
  cases h

/-! ## One callback -/

/-- A call of the second process saves only if the first one does. -/
theorem Knows.shouldSave {s s' : Process} (h : Knows longBits files files' s s')
    (taken : BitVec 32) (siteId : UIntPtr)
    (hsave : (pureConcolicShouldSave longBits files' s' taken siteId).2 = true) :
    (pureConcolicShouldSave longBits files s taken siteId).2 = true := by
  have hspec := decideSave_spec (loadHistory longBits files s) (isTaken taken) siteId
  have hspec' := decideSave_spec (loadHistory longBits files' s') (isTaken taken) siteId
  rw [pureConcolicShouldSave, hspec'.shouldSave] at hsave
  rw [pureConcolicShouldSave, hspec.shouldSave]
  simp only [loadHistory_justVisitedBb, loadHistory_currTraceMap, loadHistory_siteIds,
    h.justVisitedBb, h.currTraceMap, Bool.or_eq_true, List.contains_iff_mem] at hsave ⊢
  rcases hsave with ((hcounter | htaken) | htrace) | hsite
  · refine .inl (.inl (.inl (hasBetterCounter_anti ?_ h.oldCounterMap hcounter)))
    rw [loadHistory_counterMap, loadHistory_counterMap, h.counterMap]
  · exact .inl (.inl (.inr (recordTaken_anti (h.takens _) htaken)))
  · exact .inl (.inr (appendIfMissing_anti h.traceMaps htrace))
  · exact .inr (h.siteIds hsite)

theorem Knows.call {s s' : Process} (h : Knows longBits files files' s s') (taken : BitVec 32)
    (siteId : UIntPtr) :
    Knows longBits files files' (pureConcolicShouldSave longBits files s taken siteId).1
      (pureConcolicShouldSave longBits files' s' taken siteId).1 := by
  have hspec := decideSave_spec (loadHistory longBits files s) (isTaken taken) siteId
  have hspec' := decideSave_spec (loadHistory longBits files' s') (isTaken taken) siteId
  have hsave := h.shouldSave taken siteId
  unfold pureConcolicShouldSave at hsave ⊢
  -- a call has read the files, so loading them once more changes nothing
  have hload := loadHistory_of_initialised longBits files
    (hspec.initialised (initialised_loadHistory longBits files s))
  have hload' := loadHistory_of_initialised longBits files'
    (hspec'.initialised (initialised_loadHistory longBits files' s'))
  refine ⟨?_, ?_, ?_, ?_, fun direction ↦ ?_, ?_, ?_⟩
  · rw [hspec.counterMap, hspec'.counterMap, loadHistory_counterMap, loadHistory_counterMap,
      h.counterMap]
  · rw [hspec.currTraceMap, hspec'.currTraceMap, loadHistory_currTraceMap,
      loadHistory_currTraceMap, h.currTraceMap]
  · rw [hspec.justVisitedBb, hspec'.justVisitedBb, loadHistory_justVisitedBb,
      loadHistory_justVisitedBb, h.justVisitedBb]
  · rw [hload, hload', hspec.oldCounterMap, hspec'.oldCounterMap]
    exact h.oldCounterMap
  · rw [hload, hload']
    rcases Bool.eq_or_eq_not direction (isTaken taken) with rfl | rfl
    · -- both record the same two ids for this direction
      intro id hid
      rw [hspec.takens, mem_recordTaken, loadHistory_justVisitedBb,
        loadHistory_currTraceMap] at hid
      rw [hspec'.takens, mem_recordTaken, loadHistory_justVisitedBb, loadHistory_currTraceMap,
        h.justVisitedBb, h.currTraceMap]
      exact hid.imp_left fun hmem ↦ h.takens _ hmem
    · rw [hspec.takens_not, hspec'.takens_not]
      exact h.takens _
  · intro id hid
    rw [hload, hspec.traceMaps, mem_appendIfMissing, loadHistory_currTraceMap] at hid
    rw [hload', hspec'.traceMaps, mem_appendIfMissing, loadHistory_currTraceMap, h.currTraceMap]
    exact hid.imp_left fun hmem ↦ h.traceMaps hmem
  · rw [hspec.siteIds, hspec'.siteIds, loadHistory_siteIds, loadHistory_siteIds]
    cases hr' : ((loadHistory longBits files' s').decideSave (isTaken taken) siteId).2 with
    | true =>
      rw [if_pos rfl, if_pos (hsave hr')]
      exact List.append_subset.mpr
        ⟨List.Subset.trans h.siteIds (List.subset_append_left _ _), List.subset_append_right _ _⟩
    | false =>
      rw [if_neg Bool.false_ne_true]
      split
      · exact List.Subset.trans h.siteIds (List.subset_append_left _ _)
      · exact h.siteIds

theorem Knows.cov {s s' : Process} (h : Knows longBits files files' s s') (cbId : UInt32) :
    Knows longBits files files' (symccCovCb s cbId).1 (symccCovCb s' cbId).1 := by
  obtain ⟨hcounter, htrace, hblock, hold, htakens, htraces, hsites⟩ := h
  simp only [loadHistory_oldCounterMap] at hold
  simp only [loadHistory_takens] at htakens
  simp only [loadHistory_traceMaps] at htraces
  unfold symccCovCb
  rw [hcounter, htrace]
  -- the counters are the same, so both take the same branch, which leaves the vectors alone
  split
  all_goals
    refine ⟨rfl, ?_, rfl, ?_, ?_, ?_, hsites⟩
    · rfl
    · simp only [loadHistory_oldCounterMap]
      exact hold
    · simp only [loadHistory_takens]
      exact htakens
    · simp only [loadHistory_traceMaps]
      exact htraces

/-- What the second process answers a callback tells about the answer of the first. -/
def SavesIf (answer answer' : SolverCall) : Prop := answer' = .addJcc true → answer = .addJcc true

theorem Knows.step {s s' : Process} (h : Knows longBits files files' s s')
    (event : Event SymExpr) :
    Knows longBits files files' (step longBits files s event).1 (step longBits files' s' event).1 ∧
      SavesIf (step longBits files s event).2 (step longBits files' s' event).2 := by
  rcases event with cbId | ⟨- | c, taken, siteId⟩
  · refine ⟨h.cov cbId, fun hsave ↦ ?_⟩
    rw [step_cov] at hsave
    split at hsave <;> cases hsave
  · exact ⟨h, fun hsave ↦ nomatch hsave⟩
  · refine ⟨h.call taken siteId, fun hsave ↦ ?_⟩
    rw [step_call, SolverCall.addJcc.injEq] at hsave
    rw [step_call, h.shouldSave taken siteId hsave]

/-! ## Whole runs -/

/-- Wherever a run that starts from more history saves, the one that starts from less does. -/
theorem more_history_saves_less (longBits : ℕ) (files files' : Files)
    (h : files.Contained longBits files') (events : List (Event SymExpr)) (position : ℕ)
    (hsave : (solverCalls longBits files' events)[position]? = some (.addJcc true)) :
    (solverCalls longBits files events)[position]? = some (.addJcc true) := by
  have hanswers :
      List.Forall₂ SavesIf (solverCalls longBits files events)
        (solverCalls longBits files' events) :=
    (Machine.run_related (R := Knows longBits files files') (fun _ _ event h ↦ h.step event)
      (.init h) events).2
  obtain ⟨hlt', hsave⟩ := List.getElem?_eq_some_iff.mp hsave
  have hlt : position < (solverCalls longBits files events).length :=
    hanswers.length_eq ▸ hlt'
  rw [List.getElem?_eq_some_iff]
  exact ⟨hlt, (List.forall₂_iff_get.mp hanswers).2 position hlt hlt' hsave⟩

/-- A branch at a new block, after a history in which another block had been seen. -/
theorem more_history_saves_less_otherBlock :
    (solverCalls 64 .empty [.symccCovCb 1, .symPushPathConstraint (some ()) 1 7])[1]?
      = some (.addJcc true) :=
  more_history_saves_less 64 .empty ⟨none, none, some ['5', '\n'], none⟩
    ⟨fun _ v hv ↦ ⟨v, hv, UInt32.le_refl v⟩, fun taken ↦ by cases taken <;> decide, by decide⟩
    [.symccCovCb 1, .symPushPathConstraint (some ()) 1 7] 1 (by decide)

end PureConcolic

end Adacc
