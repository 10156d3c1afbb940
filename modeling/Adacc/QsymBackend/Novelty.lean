import Adacc.QsymBackend.Persistence

/-!
# What a skipped branch has in common with earlier ones

In a chain of runs every run starts from the files that the one before it has left. When
`pure_concolic_should_save` returns false, what it has looked for was found, and whatever is found
has been recorded by an earlier call of the chain. `nothing_new_skipped` says what this means for
the blocks.

Blocks and sets of blocks are recorded in the same vector, a set by the sum of its ids. A sum may
be the id of a block or the sum of another set, so the earlier call need not have been at the same
block or with the same set. `not_nothing_new_skipped` is a chain in which it was not.
-/

namespace Adacc

open TextFile

namespace PureConcolic

variable {SymExpr : Type}

/-- The files after a chain of runs that starts without files. -/
def chain (runs : List (List (Event SymExpr))) : Files := runs.foldl (runProcess 64) .empty

private theorem chain_concat (runs : List (List (Event SymExpr))) (events : List (Event SymExpr)) :
    chain (runs ++ [events]) = runProcess 64 (chain runs) events := List.foldl_concat ..

/-! ## Where recorded ids come from -/

/-- The id has been recorded for a direction by one of the calls. -/
def RecordedBy (earlier : List Call) (taken : Bool) (id : UInt32) : Prop :=
  ∃ call ∈ earlier, call.taken = taken ∧ (id = call.block ∨ id = blockSum call.visited)

/-- The set of blocks with this sum has been recorded by one of the calls. -/
def TraceRecordedBy (earlier : List Call) (id : UInt32) : Prop :=
  ∃ call ∈ earlier, id = blockSum call.visited

theorem RecordedBy.mono {earlier earlier' : List Call} {taken : Bool} {id : UInt32}
    (h : RecordedBy earlier taken id) (hsub : earlier ⊆ earlier') :
    RecordedBy earlier' taken id := by
  obtain ⟨call, hcall, hid⟩ := h
  exact ⟨call, hsub hcall, hid⟩

theorem TraceRecordedBy.mono {earlier earlier' : List Call} {id : UInt32}
    (h : TraceRecordedBy earlier id) (hsub : earlier ⊆ earlier') : TraceRecordedBy earlier' id := by
  obtain ⟨call, hcall, hid⟩ := h
  exact ⟨call, hsub hcall, hid⟩

/-- A process only holds ids from its files and from its own calls, also before it has read the
files. -/
theorem mem_takens_after {files : Files} {events : List (Event SymExpr)} {taken : Bool}
    {id : UInt32}
    (h : id ∈ (after 64 files events).takens taken) :
    id ∈ readIds 64 (files.prev taken) ∨ RecordedBy (calls events) taken id := by
  have hrecorded := (invariant_after 64 files events).recorded
  rw [RecordedBy, ← hrecorded.mem_takens, loadHistory_takens]
  exact List.mem_append_left _ h

private theorem mem_traceMaps_after {files : Files} {events : List (Event SymExpr)} {id : UInt32}
    (h : id ∈ (after 64 files events).traceMaps) :
    id ∈ readIds 64 files.traceMaps ∨ TraceRecordedBy (calls events) id := by
  have hrecorded := (invariant_after 64 files events).recorded
  rw [TraceRecordedBy, ← hrecorded.mem_traceMaps, loadHistory_traceMaps]
  exact List.mem_append_left _ h

/-- The files of a chain only hold what its calls have recorded. -/
theorem recorded_of_mem_chain (runs : List (List (Event SymExpr))) :
    (∀ taken, ∀ id ∈ readIds 64 ((chain runs).prev taken),
      RecordedBy (runs.flatMap calls) taken id) ∧
      ∀ id ∈ readIds 64 (chain runs).traceMaps, TraceRecordedBy (runs.flatMap calls) id := by
  induction runs using List.reverseRecOn with
  | nil =>
    refine ⟨fun taken id hid ↦ absurd hid ?_, fun id hid ↦ absurd hid List.not_mem_nil⟩
    cases taken <;> exact List.not_mem_nil
  | append_singleton runs events ih =>
    obtain ⟨hprev, htraces⟩ := ih
    have hcalls : (runs ++ [events]).flatMap calls = runs.flatMap calls ++ calls events := by
      rw [List.flatMap_append, List.flatMap_singleton]
    have hleft : runs.flatMap calls ⊆ (runs ++ [events]).flatMap calls := by
      rw [hcalls]
      exact List.subset_append_left _ _
    have hright : calls events ⊆ (runs ++ [events]).flatMap calls := by
      rw [hcalls]
      exact List.subset_append_right _ _
    rw [chain_concat]
    refine ⟨fun taken id hid ↦ ?_, fun id hid ↦ ?_⟩
    -- what the last run leaves it has either read from the files or recorded itself
    · rw [runProcess, prev_dtorRuntime, readIds_writeNumbers] at hid
      rcases mem_takens_after hid with hfile | hown
      · exact (hprev taken id hfile).mono hleft
      · exact hown.mono hright
    · rw [runProcess, dtorRuntime, readIds_writeNumbers] at hid
      rcases mem_traceMaps_after hid with hfile | hown
      · exact (htraces id hfile).mono hleft
      · exact hown.mono hright

/-! ## A call that returns false -/

/-- A call that returns false has found its block, its set of blocks for its direction, and its set
of blocks for either direction. -/
theorem found_of_not_save {files : Files} {before : List (Event SymExpr)} {taken : BitVec 32}
    {siteId : UIntPtr}
    (h : (pureConcolicShouldSave 64 files (after 64 files before) taken siteId).2 = false) :
    (∀ id, id = lastBlock before ∨ id = blockSum (visited before) →
        id ∈ readIds 64 (files.prev (isTaken taken)) ∨
          RecordedBy (calls before) (isTaken taken) id) ∧
      (blockSum (visited before) ∈ readIds 64 files.traceMaps ∨
        TraceRecordedBy (calls before) (blockSum (visited before))) := by
  have hinv := invariant_after 64 files before
  have hspec :=
    decideSave_spec (loadHistory 64 files (after 64 files before)) (isTaken taken) siteId
  have hsave := hspec.shouldSave
  rw [← pureConcolicShouldSave, h, eq_comm, Bool.or_eq_false_iff, Bool.or_eq_false_iff,
    Bool.or_eq_false_iff, loadHistory_justVisitedBb, loadHistory_currTraceMap,
    hinv.tracks.justVisitedBb, hinv.tracks.currTraceMap] at hsave
  obtain ⟨⟨⟨-, htaken⟩, htrace⟩, -⟩ := hsave
  obtain ⟨hblock, hset⟩ := mem_of_recordTaken_eq_false htaken
  refine ⟨fun id hid ↦ (hinv.recorded.mem_takens (isTaken taken) id).mp ?_,
    (hinv.recorded.mem_traceMaps _).mp (appendIfMissing_false.mp htrace)⟩
  rcases hid with rfl | rfl
  · exact hblock
  · exact hset

/-- Nothing new is skipped, as far as ids and sums can tell. When a call returns false, an earlier
call of the chain had the same direction and was at the same block, or with a set of blocks whose
sum is the block's id; an earlier call had the same direction and a set of blocks with the same sum,
or was at the block whose id is that sum; and an earlier call had a set of blocks with the same sum.
-/
theorem nothing_new_skipped (runs : List (List (Event SymExpr))) (before : List (Event SymExpr))
    (c : SymExpr) (taken : BitVec 32) (siteId : UIntPtr)
    (h : (step 64 (chain runs) (after 64 (chain runs) before)
      (.symPushPathConstraint (some c) taken siteId)).2 = .addJcc false) :
    let earlier := runs.flatMap calls ++ calls before
    RecordedBy earlier (isTaken taken) (lastBlock before) ∧
      RecordedBy earlier (isTaken taken) (blockSum (visited before)) ∧
      TraceRecordedBy earlier (blockSum (visited before)) := by
  intro earlier
  rw [step_call, SolverCall.addJcc.injEq] at h
  obtain ⟨hids, htrace⟩ := found_of_not_save h
  obtain ⟨hprev, htraces⟩ := recorded_of_mem_chain runs
  have hfound : ∀ id, id = lastBlock before ∨ id = blockSum (visited before) →
      RecordedBy earlier (isTaken taken) id := by
    intro id hid
    rcases hids id hid with hfile | hown
    · exact (hprev _ id hfile).mono (List.subset_append_left _ _)
    · exact hown.mono (List.subset_append_right _ _)
  refine ⟨hfound _ (.inl rfl), hfound _ (.inr rfl), ?_⟩
  rcases htrace with hfile | hown
  · exact (htraces _ hfile).mono (List.subset_append_left _ _)
  · exact hown.mono (List.subset_append_right _ _)

/-- The same branch in a second run. -/
theorem nothing_new_skipped_again :
    RecordedBy ([[.symccCovCb 1, .symPushPathConstraint (some ()) 1 7]].flatMap calls
        ++ calls [(.symccCovCb 1 : Event Unit)]) true 1 ∧
      RecordedBy ([[.symccCovCb 1, .symPushPathConstraint (some ()) 1 7]].flatMap calls
        ++ calls [(.symccCovCb 1 : Event Unit)]) true 1 ∧
      TraceRecordedBy ([[.symccCovCb 1, .symPushPathConstraint (some ()) 1 7]].flatMap calls
        ++ calls [(.symccCovCb 1 : Event Unit)]) 1 :=
  nothing_new_skipped [[.symccCovCb 1, .symPushPathConstraint (some ()) 1 7]] [.symccCovCb 1] () 1 7
    (by decide)

/-- In the first run a branch is reached at block 2 after the blocks 1 and 2, and block 3 follows.
In the second run the branch at block 3, after block 3 alone, is skipped. -/
theorem not_nothing_new_skipped :
    ¬ ∀ (runs : List (List (Event Unit))) (before : List (Event Unit)) (taken : BitVec 32)
      (siteId : UIntPtr),
      (∀ events ∈ before :: runs, ∀ cbId ∈ blocks events, 0 < cbId) →
      (step 64 (chain runs) (after 64 (chain runs) before)
        (.symPushPathConstraint (some ()) taken siteId)).2 = .addJcc false →
      (∃ call ∈ runs.flatMap calls ++ calls before,
          call.taken = isTaken taken ∧ call.block = lastBlock before) ∧
        ∃ call ∈ runs.flatMap calls ++ calls before,
          call.taken = isTaken taken ∧ call.visited = visited before := by
  intro h
  obtain ⟨⟨call, hcall, -, hblock⟩, -⟩ := h
    [[.symccCovCb 1, .symccCovCb 2, .symPushPathConstraint (some ()) 0 7, .symccCovCb 3]]
    [.symccCovCb 3] 0 7 (by
      simp only [blocks, Event.block, List.forall_mem_cons, List.filterMap_cons, List.filterMap_nil]
      refine ⟨⟨by decide, ?_⟩, ⟨by decide, by decide, by decide, ?_⟩, ?_⟩
      all_goals exact fun _ h ↦ absurd h List.not_mem_nil) (by decide)
  have hall : ∀ call ∈ ([[.symccCovCb 1, .symccCovCb 2, .symPushPathConstraint (some ()) 0 7,
      .symccCovCb 3]].flatMap calls ++ calls [(.symccCovCb 3 : Event Unit)]),
      call.block ≠ 3 := by decide
  exact hall call hcall hblock

end PureConcolic

end Adacc
