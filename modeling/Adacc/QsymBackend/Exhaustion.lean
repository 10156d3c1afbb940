import Adacc.QsymBackend.MoreHistory
import Adacc.QsymBackend.Replay

/-!
# What a history has exhausted

A run that is executed again right after itself saves nothing (`Replay`). Here other runs come in
between. `Exhausts` says that a history contains everything that a run looks for: its counters, the
last blocks and the sets of blocks of its calls. A run exhausts itself, the history only grows as
long as every run has a constraint that is not null, and a run that is exhausted saves nothing. So
whatever has been executed once never saves anything again (`repeat_saves_nothing`).

A run without constraints breaks the chain: it writes an empty history.
-/

namespace Adacc

open TextFile

namespace PureConcolic

variable {SymExpr : Type}

/-- The history contains whatever the run looks for. -/
structure Exhausts (events : List (Event SymExpr)) (files : Files) : Prop where
  counters : ∀ k, visits events k ≠ 0 → ∃ v, (readCounters 64 files.corpusCounters ∅)[k]? = some v ∧
    UInt32.ofNat (visits events k) ≤ v
  calls : ∀ call ∈ calls events, call.block ∈ readIds 64 (files.prev call.taken) ∧
    blockSum call.visited ∈ readIds 64 (files.prev call.taken) ∧
    blockSum call.visited ∈ readIds 64 files.traceMaps

theorem CountersLe.trans {a b c : CounterMap} (hab : CountersLe a b) (hbc : CountersLe b c) :
    CountersLe a c := by
  intro k v hv
  obtain ⟨v', hv', hle⟩ := hab k v hv
  obtain ⟨v'', hv'', hle'⟩ := hbc k v' hv'
  exact ⟨v'', hv'', UInt32.le_trans hle hle'⟩

theorem Files.Contained.refl (files : Files) : files.Contained 64 files :=
  ⟨fun _ v hv ↦ ⟨v, hv, UInt32.le_refl v⟩, fun _ ↦ List.Subset.refl _, List.Subset.refl _⟩

theorem Files.Contained.trans {a b c : Files} (hab : a.Contained 64 b) (hbc : b.Contained 64 c) :
    a.Contained 64 c :=
  ⟨hab.counters.trans hbc.counters,
    fun taken ↦ List.Subset.trans (hab.prev taken) (hbc.prev taken),
    List.Subset.trans hab.traceMaps hbc.traceMaps⟩

/-- What is exhausted stays exhausted. -/
theorem Exhausts.mono {events : List (Event SymExpr)} {files files' : Files}
    (h : Exhausts events files) (hle : files.Contained 64 files') : Exhausts events files' := by
  refine ⟨fun k hk ↦ ?_, fun call hcall ↦ ?_⟩
  · obtain ⟨v, hv, hge⟩ := h.counters k hk
    obtain ⟨v', hv', hge'⟩ := hle.counters k v hv
    exact ⟨v', hv', UInt32.le_trans hge hge'⟩
  · obtain ⟨hblock, htrace, htraces⟩ := h.calls call hcall
    exact ⟨hle.prev _ hblock, hle.prev _ htrace, hle.traceMaps htraces⟩

/-! ## A run exhausts itself, and keeps the rest -/

section RunProcess

variable (files : Files) {events : List (Event SymExpr)}

/-- A run leaves a history that contains what it has looked for. -/
theorem exhausts_runProcess (hlt : ∀ cbId, visits events cbId < 2 ^ 32) :
    Exhausts events (runProcess 64 files events) := by
  refine ⟨fun k hk ↦ ?_, fun call hcall ↦ mem_files_of_call files hcall⟩
  have htracks := (invariant_after 64 files events).tracks
  have hcounter := htracks.counterMap k
  rw [if_neg hk] at hcounter
  exact readCounters_ge files hlt List.prefix_rfl htracks hcounter

/-- Merging loses no counter. -/
theorem countersLe_mergeCounters (counterMap old : CounterMap) :
    CountersLe old (mergeCounters counterMap old) := by
  intro k v hv
  have hsome : ((mergeCounters counterMap old)[k]?).isSome := by
    rw [mergeCounters, isSome_foldl_mergeCounter, hv]
    exact Bool.or_true _
  obtain ⟨v', hv'⟩ := Option.isSome_iff_exists.mp hsome
  refine ⟨v', hv', ?_⟩
  have hcount := countOf_mergeCounters counterMap old k
  rw [countOf, hv', Option.elim_some, countOf, hv, Option.elim_some] at hcount
  rw [UInt32.le_iff_toNat_le, hcount]
  exact le_max_left _ _

/-- A run with a constraint keeps the history. -/
theorem contained_runProcess (hcalls : calls events ≠ []) :
    files.Contained 64 (runProcess 64 files events) := by
  have hrecorded := (invariant_after 64 files events).recorded
  have hload := loadHistory_of_initialised 64 files (hrecorded.initialised hcalls)
  refine ⟨?_, fun taken id hid ↦ ?_, fun id hid ↦ ?_⟩
  · have hold := hrecorded.oldCounterMap
    rw [hload] at hold
    rw [readCounters_runProcess, ← hold]
    exact countersLe_mergeCounters _ _
  · have htakens := hrecorded.mem_takens taken id
    rw [hload] at htakens
    rw [readIds_runProcess, htakens]
    exact .inl hid
  · have htraces := hrecorded.mem_traceMaps id
    rw [hload] at htraces
    rw [readIds_traceMaps_runProcess, htraces]
    exact .inl hid

/-- So do many. -/
theorem contained_foldl_runProcess {runs : List (List (Event SymExpr))}
    (hruns : ∀ events ∈ runs, calls events ≠ []) (files : Files) :
    files.Contained 64 (runs.foldl (runProcess 64) files) := by
  induction runs generalizing files with
  | nil => exact .refl files
  | cons events runs ih =>
    rw [List.forall_mem_cons] at hruns
    exact (contained_runProcess files hruns.1).trans (ih hruns.2 _)

end RunProcess

/-! ## An exhausted run -/

/-- The invariant of a run that is exhausted: it has not saved anything so far. -/
structure Idle (files : Files) (before : List (Event SymExpr)) (s : Process) : Prop where
  invariant : Invariant 64 files before s
  siteIds : s.siteIds = []
  blocked : s.previouslyBlockedASave = true → PureConcolic.calls before ≠ []

section Step

variable {files : Files} {events before : List (Event SymExpr)} {s : Process}

/-- Every counter of the run so far is in the history. -/
theorem Idle.counters (hexhausts : Exhausts events files)
    (hlt : ∀ cbId, visits events cbId < 2 ^ 32) (hbefore : before <+: events)
    (hs : Tracks before s) : CountersLe s.counterMap (readCounters 64 files.corpusCounters ∅) := by
  intro k v hv
  have hcounter := hs.counterMap k
  rw [hv] at hcounter
  have hne : visits before k ≠ 0 := by
    intro hzero
    rw [if_pos hzero] at hcounter
    cases hcounter
  have hle := visits_le hbefore k
  rw [if_neg hne, Option.some.injEq] at hcounter
  obtain ⟨v', hv', hge⟩ := hexhausts.counters k (by omega)
  refine ⟨v', hv', UInt32.le_trans ?_ hge⟩
  rw [hcounter, UInt32.le_iff_toNat_le, UInt32.toNat_ofNat', UInt32.toNat_ofNat',
    Nat.mod_eq_of_lt (hle.trans_lt (hlt k)), Nat.mod_eq_of_lt (hlt k)]
  exact hle

/-- A block that is met for the first time is in the history, once that has been read. -/
theorem Idle.symccCovCb_eq_false (hexhausts : Exhausts events files) {cbId : UInt32}
    (hbefore : before ++ [.symccCovCb cbId] <+: events) (h : Idle files before s) :
    (symccCovCb s cbId).2 = false := by
  unfold symccCovCb
  split
  · rcases hblocked : s.previouslyBlockedASave with - | -
    · exact Bool.and_false _
    · have hload := loadHistory_of_initialised 64 files
        (h.invariant.recorded.initialised (h.blocked hblocked))
      have hold := h.invariant.recorded.oldCounterMap
      rw [hload] at hold
      have hvisited : visits events cbId ≠ 0 := by
        have hle := visits_le hbefore cbId
        rw [visits_cov, if_pos rfl] at hle
        omega
      obtain ⟨v', hv', -⟩ := hexhausts.counters cbId hvisited
      have hcontains : s.oldCounterMap.contains cbId = true := by
        rw [hold, Std.ExtTreeMap.contains_eq_isSome_getElem?, hv']
        rfl
      rw [hcontains]
      rfl
  · rfl

/-- A call finds everything that it looks for. -/
theorem Idle.shouldSave_eq_false (hexhausts : Exhausts events files)
    (hlt : ∀ cbId, visits events cbId < 2 ^ 32) {c : SymExpr} {taken : BitVec 32}
    {siteId : UIntPtr}
    (hbefore : before ++ [.symPushPathConstraint (some c) taken siteId] <+: events)
    (h : Idle files before s) : (pureConcolicShouldSave 64 files s taken siteId).2 = false := by
  have hrecorded := h.invariant.recorded
  have htracks := h.invariant.tracks
  obtain ⟨hblock, htrace, htraces⟩ := hexhausts.calls _ (callAt_subset hbefore List.mem_cons_self)
  have hspec := decideSave_spec (loadHistory 64 files s) (isTaken taken) siteId
  rw [← pureConcolicShouldSave] at hspec
  have hbetter : (loadHistory 64 files s).hasBetterCounter = false := by
    rw [Process.hasBetterCounter, ← Bool.not_eq_true, List.any_eq_true]
    rintro ⟨⟨k, v⟩, hkv, hbetter⟩
    rw [Std.ExtTreeMap.mem_toList_iff_getElem?_eq_some, loadHistory_counterMap] at hkv
    obtain ⟨v', hv', hge⟩ := Idle.counters hexhausts hlt (isPrefixOf_concat hbefore) htracks k v hkv
    rw [hrecorded.oldCounterMap, hv'] at hbetter
    exact absurd (of_decide_eq_true hbetter) (UInt32.not_lt.mpr hge)
  rw [hspec.shouldSave, hbetter, loadHistory_justVisitedBb, loadHistory_currTraceMap,
    loadHistory_siteIds, htracks.justVisitedBb, htracks.currTraceMap, h.siteIds,
    recordTaken_of_mem ((hrecorded.mem_takens _ _).mpr (.inl hblock))
      ((hrecorded.mem_takens _ _).mpr (.inl htrace)),
    appendIfMissing_of_mem ((hrecorded.mem_traceMaps _).mpr (.inl htraces))]
  rfl

theorem Idle.step (hexhausts : Exhausts events files) (hlt : ∀ cbId, visits events cbId < 2 ^ 32)
    {event : Event SymExpr} (hbefore : before ++ [event] <+: events) (h : Idle files before s) :
    Idle files (before ++ [event]) (step 64 files s event).1 ∧
      (step 64 files s event).2.SavesNothing := by
  have hinv := h.invariant.step event
  match event with
  | .symccCovCb cbId =>
    obtain ⟨counterMap, currTraceMap, justVisitedBb, heq⟩ := symccCovCb_eq s cbId
    have hcalls :
        PureConcolic.calls (before ++ [.symccCovCb cbId]) = PureConcolic.calls before := by
      rw [calls_concat]
      exact List.append_nil _
    refine ⟨⟨hinv, ?_, ?_⟩, ?_⟩
    · rw [step_cov, heq]
      exact h.siteIds
    · rw [step_cov, heq, hcalls]
      exact h.blocked
    · rw [step_cov, h.symccCovCb_eq_false hexhausts hbefore]
      exact ⟨by simp, by simp⟩
  | .symPushPathConstraint none taken siteId =>
    have hcalls : PureConcolic.calls (before ++ [.symPushPathConstraint none taken siteId])
        = PureConcolic.calls before := by
      rw [calls_concat]
      exact List.append_nil _
    refine ⟨⟨hinv, h.siteIds, ?_⟩, ⟨by simp [PureConcolic.step], by simp [PureConcolic.step]⟩⟩
    rw [hcalls]
    exact h.blocked
  | .symPushPathConstraint (some c) taken siteId =>
    have hsave := h.shouldSave_eq_false hexhausts hlt hbefore
    have hspec := decideSave_spec (loadHistory 64 files s) (isTaken taken) siteId
    rw [← pureConcolicShouldSave] at hspec
    refine ⟨⟨hinv, ?_, fun _ ↦ ?_⟩, ?_⟩
    · rw [step_call, hspec.siteIds, hsave, if_neg Bool.false_ne_true, loadHistory_siteIds,
        h.siteIds]
    · rw [calls_concat]
      simp [callAt]
    · rw [step_call, hsave]
      exact ⟨by simp, by simp⟩

end Step

/-- An exhausted run saves nothing. -/
theorem Exhausts.savesNothing {events : List (Event SymExpr)} {files : Files}
    (h : Exhausts events files) (hlt : ∀ cbId, visits events cbId < 2 ^ 32) :
    ∀ c ∈ solverCalls 64 files events, c.SavesNothing :=
  Machine.run_answers (I := Idle files) (P := (· <+: events)) (fun _ _ ↦ isPrefixOf_concat)
    ⟨.init 64 files, rfl, fun h ↦ nomatch h⟩ (fun _ _ _ hbefore hs ↦ hs.step h hlt hbefore)
    List.prefix_rfl

/-- What has been executed once saves nothing when it is executed again, whatever has been executed
in between, as long as every run has a constraint that is not null. -/
theorem repeat_saves_nothing (files : Files) (events : List (Event SymExpr))
    (between : List (List (Event SymExpr))) (hlt : ∀ cbId, visits events cbId < 2 ^ 32)
    (hbetween : ∀ run ∈ between, HasConstraint run) :
    ∀ c ∈ solverCalls 64 (between.foldl (runProcess 64) (runProcess 64 files events)) events,
      c ≠ .checkAndSave ∧ c ≠ .addJcc true :=
  ((exhausts_runProcess files hlt).mono (contained_foldl_runProcess
    (fun run hrun ↦ calls_ne_nil_iff.mpr (hbetween run hrun)) _)).savesNothing hlt

/-- A branch at block 1, a run through block 2, and the branch again. -/
theorem repeat_saves_nothing_branch :
    SolverCall.addJcc true ∉ solverCalls 64 ([[.symccCovCb 2,
        .symPushPathConstraint (some ()) 0 9]].foldl (runProcess 64) (runProcess 64 .empty
          [.symccCovCb 1, .symPushPathConstraint (some ()) 1 7]))
        [.symccCovCb 1, .symPushPathConstraint (some ()) 1 7] := by
  intro hmem
  refine (repeat_saves_nothing .empty _ _ (fun cbId ↦ ?_) ?_ _ hmem).2 rfl
  · exact List.count_le_length.trans_lt (by decide)
  · exact List.forall_mem_singleton.mpr ⟨(), 0, 9, List.mem_cons_of_mem _ List.mem_cons_self⟩

end PureConcolic

end Adacc
