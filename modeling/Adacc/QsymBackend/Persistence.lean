import Adacc.QsymBackend.History

/-!
# What a run leaves in the files

The invariant of a run has two parts: `Tracks`, about the variables that depend on the events only,
and `Recorded`, about those that come from the files. `Recorded` speaks about the state that
`loadHistory` would produce, so that it reads the same before and after the first call.

The files that the destructor writes are read back exactly by the next process. With the invariant
this gives `historyKept_iff`: the history survives a run exactly if the run has a constraint that is
not null, or there was nothing to lose, and no counter has overflown.
-/

namespace Adacc

open TextFile

namespace PureConcolic

variable {SymExpr : Type}

/-! ## Counters -/

/-- The count of a block; 0 for a block without counter. -/
def countOf (counters : CounterMap) (cbId : UInt32) : ℕ := (counters[cbId]?).elim 0 UInt32.toNat

private theorem countOf_lt (counters : CounterMap) (cbId : UInt32) :
    countOf counters cbId < 2 ^ 32 := by
  unfold countOf
  cases counters[cbId]? with
  | none => norm_num
  | some v => exact v.toNat_lt

theorem countOf_insert (counters : CounterMap) (cbId k v : UInt32) :
    countOf (counters.insert cbId v) k = if cbId = k then v.toNat else countOf counters k := by
  rw [countOf, Std.ExtTreeMap.getElem?_insert, countOf]
  by_cases hk : cbId = k
  · rw [if_pos hk, if_pos (by rw [hk]; exact Std.ReflCmp.compare_self), Option.elim_some]
  · rw [if_neg hk, if_neg (fun hc ↦ hk (Std.LawfulEqOrd.eq_of_compare hc))]

private theorem countOf_mergeCounter (old : CounterMap) (entry : UInt32 × UInt32) (k : UInt32) :
    countOf (mergeCounter old entry) k
      = max (countOf old k) (if entry.1 = k then entry.2.toNat else 0) := by
  have hat : ∀ v, old[entry.1]? = some v → countOf old entry.1 = v.toNat := by
    intro v hv
    rw [countOf, hv, Option.elim_some]
  unfold mergeCounter
  split
  · next hnone =>
    rw [countOf_insert]
    split
    · next hk =>
      rw [← hk, countOf, hnone, Option.elim_none, Nat.zero_max]
    · rw [Nat.max_zero]
  · next v hv =>
    by_cases hk : entry.1 = k
    · subst hk
      rw [if_pos rfl, hat v hv]
      split
      · next hlt =>
        rw [countOf_insert, if_pos rfl, max_eq_right (UInt32.lt_iff_toNat_lt.mp hlt).le]
      · next hle =>
        rw [hat v hv, max_eq_left (UInt32.le_iff_toNat_le.mp (UInt32.not_lt.mp hle))]
    · rw [if_neg hk, Nat.max_zero]
      split
      · rw [countOf_insert, if_neg hk]
      · rfl

private theorem countOf_foldl_mergeCounter (entries : List (UInt32 × UInt32)) (old : CounterMap)
    (k : UInt32) :
    countOf (entries.foldl mergeCounter old) k
      = entries.foldl (fun n entry ↦ max n (if entry.1 = k then entry.2.toNat else 0))
          (countOf old k) := by
  induction entries generalizing old with
  | nil => rfl
  | cons entry entries ih => rw [List.foldl_cons, ih, countOf_mergeCounter, List.foldl_cons]

/-- The largest value that a list of entries has for a key is an upper bound and, unless it is the
initial one, is attained. -/
theorem foldl_max_spec (entries : List (UInt32 × UInt32)) (k : UInt32) (n : ℕ) :
    n ≤ entries.foldl (fun n entry ↦ max n (if entry.1 = k then entry.2.toNat else 0)) n ∧
      (∀ v, (k, v) ∈ entries →
        v.toNat
          ≤ entries.foldl (fun n entry ↦ max n (if entry.1 = k then entry.2.toNat else 0)) n) ∧
      (entries.foldl (fun n entry ↦ max n (if entry.1 = k then entry.2.toNat else 0)) n = n ∨
        ∃ v, (k, v) ∈ entries ∧
          entries.foldl (fun n entry ↦ max n (if entry.1 = k then entry.2.toNat else 0)) n
            = v.toNat) := by
  induction entries generalizing n with
  | nil => exact ⟨le_rfl, fun v hv ↦ absurd hv List.not_mem_nil, .inl rfl⟩
  | cons entry entries ih =>
    obtain ⟨hge, hmem, hval⟩ := ih (max n (if entry.1 = k then entry.2.toNat else 0))
    rw [List.foldl_cons]
    refine ⟨(le_max_left _ _).trans hge, fun v hv ↦ ?_, ?_⟩
    -- the maximum only grows after the entry
    · rcases List.mem_cons.mp hv with rfl | hv
      · rw [if_pos rfl] at hge ⊢
        exact (le_max_right _ _).trans hge
      · exact hmem v hv
    · rcases hval with hval | ⟨v, hv, hval⟩
      · rw [hval]
        by_cases hk : entry.1 = k
        · rw [if_pos hk]
          rcases max_choice n entry.2.toNat with hmax | hmax
          · exact .inl hmax
          · exact .inr ⟨entry.2, by rw [← hk]; exact List.mem_cons_self, hmax⟩
        · rw [if_neg hk]
          exact .inl (Nat.max_zero n)
      · exact .inr ⟨v, List.mem_cons_of_mem _ hv, hval⟩

/-- The merged counter of a block is the larger one of the two. -/
theorem countOf_mergeCounters (counterMap old : CounterMap) (k : UInt32) :
    countOf (mergeCounters counterMap old) k = max (countOf old k) (countOf counterMap k) := by
  obtain ⟨hge, hmem, hval⟩ := foldl_max_spec counterMap.toList k (countOf old k)
  rw [← countOf_foldl_mergeCounter, ← mergeCounters] at hge hmem hval
  simp only [Std.ExtTreeMap.mem_toList_iff_getElem?_eq_some] at hmem hval
  apply le_antisymm
  · rcases hval with hval | ⟨v, hv, hval⟩
    · rw [hval]
      exact le_max_left _ _
    · rw [hval]
      refine le_trans (le_of_eq ?_) (le_max_right _ _)
      rw [countOf, hv, Option.elim_some]
  · refine max_le hge ?_
    cases hv : counterMap[k]? with
    | none => rw [countOf, hv]; exact Nat.zero_le _
    | some v => rw [countOf, hv]; exact hmem v hv

private theorem isSome_mergeCounter (old : CounterMap) (entry : UInt32 × UInt32) (k : UInt32) :
    ((mergeCounter old entry)[k]?).isSome = (entry.1 == k || (old[k]?).isSome) := by
  have hinsert :
      ((old.insert entry.1 entry.2)[k]?).isSome = (entry.1 == k || (old[k]?).isSome) := by
    rw [Std.ExtTreeMap.getElem?_insert]
    by_cases hk : entry.1 = k
    · rw [if_pos (by rw [hk]; exact Std.ReflCmp.compare_self), hk, beq_self_eq_true]
      rfl
    · rw [if_neg (fun hc ↦ hk (Std.LawfulEqOrd.eq_of_compare hc)), beq_false_of_ne hk,
        Bool.false_or]
  unfold mergeCounter
  split
  · exact hinsert
  · next v hv =>
    split
    · exact hinsert
    · by_cases hk : entry.1 = k
      · rw [← hk, hv]
        exact (Bool.or_true _).symm
      · rw [beq_false_of_ne hk, Bool.false_or]

theorem isSome_foldl_mergeCounter (entries : List (UInt32 × UInt32)) (old : CounterMap)
    (k : UInt32) :
    ((entries.foldl mergeCounter old)[k]?).isSome
      = (entries.any (fun entry ↦ entry.1 == k) || (old[k]?).isSome) := by
  induction entries generalizing old with
  | nil => rfl
  | cons entry entries ih =>
    rw [List.foldl_cons, ih, isSome_mergeCounter, List.any_cons, Bool.or_left_comm, Bool.or_assoc]

/-- Every block with a counter in this run has one afterwards that is not smaller. -/
theorem getElem?_mergeCounters {counterMap : CounterMap} (old : CounterMap) {k v : UInt32}
    (h : counterMap[k]? = some v) :
    ∃ v', (mergeCounters counterMap old)[k]? = some v' ∧ v ≤ v' := by
  have hmem : (k, v) ∈ counterMap.toList := Std.ExtTreeMap.mem_toList_iff_getElem?_eq_some.mpr h
  have hsome : ((mergeCounters counterMap old)[k]?).isSome := by
    rw [mergeCounters, isSome_foldl_mergeCounter,
      List.any_eq_true.mpr ⟨(k, v), hmem, beq_self_eq_true k⟩, Bool.true_or]
  obtain ⟨v', hv'⟩ := Option.isSome_iff_exists.mp hsome
  refine ⟨v', hv', ?_⟩
  have hcount := countOf_mergeCounters counterMap old k
  rw [countOf, hv', Option.elim_some, countOf, countOf, h, Option.elim_some] at hcount
  rw [UInt32.le_iff_toNat_le, hcount]
  exact le_max_right _ _

/-! ## Round trips -/

theorem readPairs_append (entries : List (UInt32 × UInt32)) (old : CounterMap) :
    readPairs (entries.flatMap fun entry ↦ [entry.1, entry.2]) old
      = entries.foldl (fun m entry ↦ m.insert entry.1 entry.2) old := by
  induction entries generalizing old with
  | nil => rfl
  | cons entry entries ih => rw [List.flatMap_cons, List.foldl_cons, ← ih]; rfl

theorem insertMany_toList (counters : CounterMap) :
    (∅ : CounterMap).insertMany counters.toList = counters := by
  apply Std.ExtTreeMap.ext_getElem?
  intro k
  cases hk : counters[k]? with
  | some v =>
    exact Std.ExtTreeMap.getElem?_insertMany_list_of_mem Std.ReflCmp.compare_self
      Std.ExtTreeMap.distinct_keys_toList (Std.ExtTreeMap.mem_toList_iff_getElem?_eq_some.mpr hk)
  | none =>
    rw [Std.ExtTreeMap.getElem?_insertMany_list_of_contains_eq_false]
    · exact Std.ExtTreeMap.getElem?_empty
    · rw [Std.ExtTreeMap.map_fst_toList_eq_keys, Bool.eq_false_iff]
      intro hmem
      rw [List.contains_iff_mem, Std.ExtTreeMap.mem_keys, Std.ExtTreeMap.mem_iff_isSome_getElem?,
        hk]
        at hmem
      cases hmem

/-- The counters are read back. -/
theorem readCounters_writeCounters (counters : CounterMap) :
    readCounters 64 (some (writeCounters counters)) ∅ = counters := by
  rw [readCounters, contents, Option.getD_some, writeCounters, readNumbers_writeNumbers_64,
    readPairs_append, ← Std.ExtTreeMap.insertMany_list_eq_foldl, insertMany_toList]

/-- The ids are read back. -/
theorem readIds_writeNumbers (ids : List UInt32) : readIds 64 (some (writeNumbers ids)) = ids :=
  readNumbers_writeNumbers_64 ids

theorem prev_dtorRuntime (s : Process) (taken : Bool) :
    (dtorRuntime s).prev taken = some (writeNumbers (s.takens taken)) := by
  cases taken <;> rfl

/-! ## The invariant of a run -/

/-- The variables that come from the files, once they have been read. -/
structure Recorded (longBits : ℕ) (files : Files) (events : List (Event SymExpr)) (s : Process) :
    Prop where
  oldCounterMap : (loadHistory longBits files s).oldCounterMap
    = readCounters longBits files.corpusCounters ∅
  mem_takens : ∀ taken id, id ∈ (loadHistory longBits files s).takens taken ↔
    id ∈ readIds longBits (files.prev taken) ∨
      ∃ call ∈ calls events, call.taken = taken ∧ (id = call.block ∨ id = blockSum call.visited)
  mem_traceMaps : ∀ id, id ∈ (loadHistory longBits files s).traceMaps ↔
    id ∈ readIds longBits files.traceMaps ∨ ∃ call ∈ calls events, id = blockSum call.visited
  /-- Before the first call nothing has been read. -/
  fresh : calls events = [] →
    s.oldCounterMap = ∅ ∧ (∀ taken, s.takens taken = []) ∧ s.traceMaps = []
  initialised : calls events ≠ [] → s.Initialised

/-- A callback that leaves these variables alone and makes no call. -/
theorem Recorded.of_eq {longBits : ℕ} {files : Files} {events : List (Event SymExpr)}
    {event : Event SymExpr} {s s' : Process} (h : Recorded longBits files events s)
    (hcalls : callAt events event = [])
    (hload : ∃ counterMap currTraceMap justVisitedBb,
      s' = { s with counterMap, currTraceMap, justVisitedBb }) :
    Recorded longBits files (events ++ [event]) s' := by
  have hcalls' : calls (events ++ [event]) = calls events := by
    rw [calls_concat, hcalls, List.append_nil]
  obtain ⟨counterMap, currTraceMap, justVisitedBb, rfl⟩ := hload
  refine ⟨?_, fun taken id ↦ ?_, fun id ↦ ?_, ?_, ?_⟩
  · rw [← h.oldCounterMap, loadHistory_oldCounterMap, loadHistory_oldCounterMap]
  · rw [hcalls', ← h.mem_takens, loadHistory_takens, loadHistory_takens]
    rfl
  · rw [hcalls', ← h.mem_traceMaps, loadHistory_traceMaps, loadHistory_traceMaps]
  · rw [hcalls']
    exact h.fresh
  · rw [hcalls']
    exact h.initialised

/-- A call adds what it is about to the vectors. -/
theorem Recorded.call {longBits : ℕ} {files : Files} {events : List (Event SymExpr)}
    {s : Process} (h : Recorded longBits files events s) (htracks : Tracks events s)
    (constraint : SymExpr) (taken : BitVec 32) (siteId : UIntPtr) :
    Recorded longBits files (events ++ [.symPushPathConstraint (some constraint) taken siteId])
      (pureConcolicShouldSave longBits files s taken siteId).1 := by
  have hspec := decideSave_spec (loadHistory longBits files s) (isTaken taken) siteId
  rw [← pureConcolicShouldSave] at hspec
  have hblock : (loadHistory longBits files s).justVisitedBb = lastBlock events :=
    (loadHistory_justVisitedBb longBits files s).trans htracks.justVisitedBb
  have htrace : (loadHistory longBits files s).currTraceMap = blockSum (visited events) :=
    (loadHistory_currTraceMap longBits files s).trans htracks.currTraceMap
  have hinit := hspec.initialised (initialised_loadHistory longBits files s)
  have hcalls : calls (events ++ [.symPushPathConstraint (some constraint) taken siteId])
      = calls events ++ [⟨isTaken taken, lastBlock events, visited events⟩] := calls_concat _ _
  refine ⟨?_, fun taken' id ↦ ?_, fun id ↦ ?_, ?_, fun _ ↦ hinit⟩
  · rw [loadHistory_of_initialised _ _ hinit, hspec.oldCounterMap, h.oldCounterMap]
  · rw [loadHistory_of_initialised _ _ hinit, hcalls]
    simp only [List.mem_append, List.mem_singleton, or_and_right, exists_or, exists_eq_left]
    rw [← or_assoc, ← h.mem_takens]
    -- the vector of the other direction is not touched
    rcases Bool.eq_or_eq_not taken' (isTaken taken) with rfl | rfl
    · rw [hspec.takens, mem_recordTaken, hblock, htrace, and_iff_right rfl]
    · rw [hspec.takens_not, or_iff_left fun hcall ↦ Bool.not_ne_self _ hcall.1.symm]
  · rw [loadHistory_of_initialised _ _ hinit, hcalls, hspec.traceMaps, mem_appendIfMissing,
      htrace, h.mem_traceMaps, or_assoc]
    simp only [List.mem_append, List.mem_singleton, or_and_right, exists_or, exists_eq_left]
  · rw [hcalls]
    exact fun hnil ↦ absurd hnil (by simp)

/-- Both parts of the invariant. -/
structure Invariant (longBits : ℕ) (files : Files) (events : List (Event SymExpr)) (s : Process) :
    Prop where
  tracks : Tracks events s
  recorded : Recorded longBits files events s

theorem Invariant.init (longBits : ℕ) (files : Files) :
    Invariant longBits files ([] : List (Event SymExpr)) .init where
  tracks := ⟨fun _ ↦ Std.ExtTreeMap.getElem?_empty, rfl, rfl⟩
  recorded := by
    refine ⟨rfl, fun taken id ↦ ?_, fun id ↦ ?_, fun _ ↦ ⟨rfl, by rintro ⟨⟩ <;> rfl, rfl⟩,
      fun h ↦ absurd rfl h⟩
    · rw [loadHistory_takens]
      cases taken <;> simp [Process.init, Process.takens, calls, callsFrom]
    · rw [loadHistory_traceMaps]
      simp [Process.init, calls, callsFrom]

theorem symccCovCb_eq (s : Process) (cbId : UInt32) :
    ∃ counterMap currTraceMap justVisitedBb,
      (symccCovCb s cbId).1 = { s with counterMap, currTraceMap, justVisitedBb } := by
  unfold symccCovCb
  split
  · exact ⟨_, _, _, rfl⟩
  · exact ⟨_, _, _, rfl⟩

/-- Every callback keeps the invariant. -/
theorem Invariant.step {longBits : ℕ} {files : Files} {events : List (Event SymExpr)}
    {s : Process} (h : Invariant longBits files events s) (event : Event SymExpr) :
    Invariant longBits files (events ++ [event]) (step longBits files s event).1 := by
  cases event with
  | symccCovCb cbId =>
    exact ⟨h.tracks.cov cbId, h.recorded.of_eq rfl (symccCovCb_eq s cbId)⟩
  | symPushPathConstraint constraint taken siteId =>
    cases constraint with
    | none =>
      exact ⟨h.tracks.push none taken siteId rfl rfl rfl, h.recorded.of_eq rfl ⟨_, _, _, rfl⟩⟩
    | some c =>
      have hspec := decideSave_spec (loadHistory longBits files s) (isTaken taken) siteId
      exact ⟨h.tracks.push (some c) taken siteId
          (hspec.counterMap.trans (loadHistory_counterMap longBits files s))
          (hspec.currTraceMap.trans (loadHistory_currTraceMap longBits files s))
          (hspec.justVisitedBb.trans (loadHistory_justVisitedBb longBits files s)),
        h.recorded.call h.tracks c taken siteId⟩

/-- The invariant holds after every run. -/
theorem invariant_after (longBits : ℕ) (files : Files) (events : List (Event SymExpr)) :
    Invariant longBits files events (after longBits files events) :=
  Machine.run_invariant (P := fun _ ↦ True) (fun _ _ _ ↦ trivial) (.init longBits files)
    (fun _ event _ _ h ↦ h.step event) trivial

/-! ## Keeping the history -/

/-- The counter of a block in `corpus_counters.stats`; 0 for a block that is not listed. -/
def storedCount (file : Option (List Char)) (cbId : UInt32) : ℕ :=
  countOf (readCounters 64 file ∅) cbId

/-- The history survives a run: no id is lost, and every counter is afterwards the maximum of the
stored one and the number of visits in this run. -/
structure HistoryKept (files : Files) (events : List (Event SymExpr)) : Prop where
  prev : ∀ taken, ∀ id ∈ readIds 64 (files.prev taken),
    id ∈ readIds 64 ((runProcess 64 files events).prev taken)
  traceMaps : ∀ id ∈ readIds 64 files.traceMaps,
    id ∈ readIds 64 (runProcess 64 files events).traceMaps
  counters : ∀ cbId, storedCount (runProcess 64 files events).corpusCounters cbId
    = max (storedCount files.corpusCounters cbId) (visits events cbId)

/-- Some path constraint of the run is not null. -/
def HasConstraint (events : List (Event SymExpr)) : Prop :=
  ∃ constraint taken siteId, Event.symPushPathConstraint (some constraint) taken siteId ∈ events

/-- There is nothing in the files that the run does not find out by itself. -/
def NothingToLose (files : Files) (events : List (Event SymExpr)) : Prop :=
  (∀ taken, readIds 64 (files.prev taken) = []) ∧ readIds 64 files.traceMaps = [] ∧
    ∀ cbId, storedCount files.corpusCounters cbId ≤ visits events cbId

theorem calls_ne_nil_iff {events : List (Event SymExpr)} :
    calls events ≠ [] ↔ HasConstraint events := by
  induction events using List.reverseRecOn with
  | nil => exact iff_of_false (fun h ↦ h rfl) (fun ⟨_, _, _, h⟩ ↦ absurd h List.not_mem_nil)
  | append_singleton events event ih =>
    have hsplit :
        HasConstraint (events ++ [event]) ↔ HasConstraint events ∨ callAt events event ≠ [] := by
      simp only [HasConstraint, List.mem_append, List.mem_singleton, exists_or]
      refine or_congr_right ?_
      match event with
      | .symccCovCb cbId => simp [callAt]
      | .symPushPathConstraint none taken siteId => simp [callAt]
      | .symPushPathConstraint (some c) taken siteId => simp [callAt]
    rw [hsplit, calls_concat, Ne, List.append_eq_nil_iff, not_and_or, ← ih]

/-- The counter of a run is the number of visits modulo the range of a counter. -/
theorem Tracks.countOf_eq {events : List (Event SymExpr)} {s : Process} (h : Tracks events s)
    (k : UInt32) : countOf s.counterMap k = visits events k % 2 ^ 32 := by
  rw [countOf, h.counterMap]
  split
  · next hzero => rw [Option.elim_none, hzero, Nat.zero_mod]
  · rw [Option.elim_some, UInt32.toNat_ofNat']

private theorem calls_eq_nil_of_not_hasConstraint {events : List (Event SymExpr)}
    (h : ¬HasConstraint events) : calls events = [] :=
  not_not.mp fun hne ↦ h (calls_ne_nil_iff.mp hne)

section RunProcess

variable (files : Files) (events : List (Event SymExpr))

theorem readCounters_runProcess :
    readCounters 64 (runProcess 64 files events).corpusCounters ∅
      = mergeCounters (after 64 files events).counterMap (after 64 files events).oldCounterMap :=
  readCounters_writeCounters _

theorem readIds_runProcess (taken : Bool) :
    readIds 64 ((runProcess 64 files events).prev taken)
      = (after 64 files events).takens taken := by
  rw [runProcess, prev_dtorRuntime, readIds_writeNumbers]

theorem readIds_traceMaps_runProcess :
    readIds 64 (runProcess 64 files events).traceMaps = (after 64 files events).traceMaps :=
  readIds_writeNumbers _

/-- The counters that a run leaves. -/
theorem storedCount_runProcess (k : UInt32) :
    storedCount (runProcess 64 files events).corpusCounters k
      = max (countOf (after 64 files events).oldCounterMap k) (visits events k % 2 ^ 32) := by
  rw [storedCount, readCounters_runProcess, countOf_mergeCounters,
    (invariant_after 64 files events).tracks.countOf_eq]

variable {files events}

/-- Without a call, the counters of the run itself. -/
theorem storedCount_runProcess_of_calls_eq_nil (h : calls events = []) (k : UInt32) :
    storedCount (runProcess 64 files events).corpusCounters k = visits events k % 2 ^ 32 := by
  obtain ⟨hold, -, -⟩ := (invariant_after 64 files events).recorded.fresh h
  rw [storedCount_runProcess, hold, countOf, Std.ExtTreeMap.getElem?_empty, Option.elim_none,
    Nat.zero_max]

theorem HistoryKept.visits_lt (h : HistoryKept files events) (cbId : UInt32) :
    visits events cbId < 2 ^ 32 := by
  calc visits events cbId
      ≤ storedCount (runProcess 64 files events).corpusCounters cbId := by
        rw [h.counters]
        exact le_max_right _ _
    _ < 2 ^ 32 := countOf_lt _ _

/-- Without a call the destructor writes what the process started with, which is nothing. -/
theorem HistoryKept.nothingToLose (h : HistoryKept files events) (hnone : calls events = []) :
    NothingToLose files events := by
  obtain ⟨-, htakens, htrace⟩ := (invariant_after 64 files events).recorded.fresh hnone
  refine ⟨fun taken ↦ ?_, ?_, fun cbId ↦ ?_⟩
  · refine List.eq_nil_iff_forall_not_mem.mpr fun id hid ↦ ?_
    have hkept := h.prev taken id hid
    rw [readIds_runProcess, htakens] at hkept
    exact List.not_mem_nil hkept
  · refine List.eq_nil_iff_forall_not_mem.mpr fun id hid ↦ ?_
    have hkept := h.traceMaps id hid
    rw [readIds_traceMaps_runProcess, htrace] at hkept
    exact List.not_mem_nil hkept
  · have hcount := h.counters cbId
    rw [storedCount_runProcess_of_calls_eq_nil hnone, Nat.mod_eq_of_lt (h.visits_lt cbId)] at hcount
    rw [hcount]
    exact le_max_left _ _

theorem NothingToLose.historyKept (h : NothingToLose files events) (hnone : calls events = [])
    (hlt : ∀ cbId, visits events cbId < 2 ^ 32) : HistoryKept files events := by
  obtain ⟨hids, htrace, hcounts⟩ := h
  refine ⟨fun taken id hid ↦ ?_, fun id hid ↦ ?_, fun cbId ↦ ?_⟩
  · rw [hids] at hid
    exact absurd hid List.not_mem_nil
  · rw [htrace] at hid
    exact absurd hid List.not_mem_nil
  · rw [storedCount_runProcess_of_calls_eq_nil hnone, Nat.mod_eq_of_lt (hlt cbId),
      max_eq_right (hcounts cbId)]

/-- The first call reads the files, and from then on the process only adds to what it has read. -/
theorem historyKept_of_calls_ne_nil (h : calls events ≠ [])
    (hlt : ∀ cbId, visits events cbId < 2 ^ 32) : HistoryKept files events := by
  have hrecorded := (invariant_after 64 files events).recorded
  have hload := loadHistory_of_initialised 64 files (hrecorded.initialised h)
  refine ⟨fun taken id hid ↦ ?_, fun id hid ↦ ?_, fun cbId ↦ ?_⟩
  · rw [readIds_runProcess, ← hload, hrecorded.mem_takens]
    exact .inl hid
  · rw [readIds_traceMaps_runProcess, ← hload, hrecorded.mem_traceMaps]
    exact .inl hid
  · rw [storedCount_runProcess, Nat.mod_eq_of_lt (hlt cbId), ← hload, hrecorded.oldCounterMap]
    rfl

end RunProcess

/-- Exactly when a run keeps the history. -/
theorem historyKept_iff (files : Files) (events : List (Event SymExpr)) :
    HistoryKept files events ↔
      (∀ cbId, visits events cbId < 2 ^ 32) ∧
        (HasConstraint events ∨ NothingToLose files events) := by
  constructor
  · intro hkept
    refine ⟨hkept.visits_lt, ?_⟩
    by_cases hconstraint : HasConstraint events
    · exact .inl hconstraint
    · exact .inr (hkept.nothingToLose (calls_eq_nil_of_not_hasConstraint hconstraint))
  · rintro ⟨hlt, hor⟩
    by_cases hconstraint : HasConstraint events
    · exact historyKept_of_calls_ne_nil (calls_ne_nil_iff.mpr hconstraint) hlt
    · have hnone := calls_eq_nil_of_not_hasConstraint hconstraint
      exact (hor.resolve_left hconstraint).historyKept hnone hlt

/-- A run without any callback erases a set of blocks that an earlier run had recorded. -/
theorem not_historyKept :
    ¬ ∀ (files : Files) (events : List (Event Unit)), HistoryKept files events := by
  intro h
  have := (h ⟨none, none, none, some (writeNumbers [5])⟩ []).traceMaps 5 (by decide)
  exact absurd this (by decide)

end PureConcolic

end Adacc
