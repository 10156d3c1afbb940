import Adacc.QsymBackend.Persistence

/-!
# What is read back from the files

The destructor writes ids and counters as unsigned numbers of 32 bits, and the next process reads
them with `atol`, whose result is a `long`. Where that has 32 bits, too, as on the 32-bit build,
half of the numbers do not fit and become the largest one that does. `roundTrips_iff` says that the
history survives exactly if all numbers fit.

For the counters this takes an argument: several ids may become the same one, and then the last
counter wins. But all numbers that are read fit into a `long`, so a map with a number that does not
is never read back.
-/

namespace Adacc

open TextFile

namespace PureConcolic

/-! ## Counters -/

/-- The pairs that the loop inserts are entries of the file. -/
theorem mem_of_getElem?_readPairs {entries : List (UInt32 × UInt32)} {old : CounterMap}
    {k v : UInt32}
    (h : (readPairs (entries.flatMap fun entry ↦ [entry.1, entry.2]) old)[k]? = some v) :
    (k, v) ∈ entries ∨ old[k]? = some v := by
  rw [readPairs_append] at h
  induction entries generalizing old with
  | nil => exact .inr h
  | cons entry entries ih =>
    rw [List.foldl_cons] at h
    rcases ih h with hmem | hold
    · exact .inl (List.mem_cons_of_mem _ hmem)
    · rw [Std.ExtTreeMap.getElem?_insert] at hold
      split at hold
      · next heq =>
        have hk : entry.1 = k := Std.LawfulEqOrd.eq_of_compare heq
        exact .inl (List.mem_cons.mpr (.inl (by rw [← hk, ← Option.some.inj hold])))
      · exact .inr hold

/-- Everything that is read fits into a `long`. -/
theorem lt_of_getElem?_readCounters {longBits : ℕ} {counters : CounterMap} {k v : UInt32}
    (h : (readCounters longBits (some (writeCounters counters)) ∅)[k]? = some v) :
    k.toNat < 2 ^ (longBits - 1) ∧ v.toNat < 2 ^ (longBits - 1) := by
  have hpairs : (counters.toList.flatMap fun entry ↦ [entry.1, entry.2]).map (throughLong longBits)
      = (counters.toList.map (Prod.map (throughLong longBits) (throughLong longBits))).flatMap
          fun entry ↦ [entry.1, entry.2] := by
    rw [List.map_flatMap, List.flatMap_map]
    rfl
  rw [readCounters, contents, Option.getD_some, writeCounters, readNumbers_writeNumbers_eq,
    hpairs] at h
  rcases mem_of_getElem?_readPairs h with hmem | hempty
  · obtain ⟨entry, -, hentry⟩ := List.mem_map.mp hmem
    obtain ⟨rfl, rfl⟩ := Prod.ext_iff.mp hentry
    exact ⟨toNat_throughLong_lt longBits _, toNat_throughLong_lt longBits _⟩
  · rw [Std.ExtTreeMap.getElem?_empty] at hempty
    cases hempty

/-- The counters are read back exactly if all ids and counts fit. -/
theorem readCounters_writeCounters_iff (longBits : ℕ) (counters : CounterMap) :
    readCounters longBits (some (writeCounters counters)) ∅ = counters ↔
      ∀ k v : UInt32, counters[k]? = some v →
        k.toNat < 2 ^ (longBits - 1) ∧ v.toNat < 2 ^ (longBits - 1) := by
  constructor
  · intro h k v hkv
    rw [← h] at hkv
    exact lt_of_getElem?_readCounters hkv
  · intro h
    have hfits : ∀ n ∈ counters.toList.flatMap fun entry ↦ [entry.1, entry.2],
        n.toNat < 2 ^ (longBits - 1) := by
      intro n hn
      obtain ⟨⟨k, v⟩, hmem, hn⟩ := List.mem_flatMap.mp hn
      obtain ⟨hk, hv⟩ := h k v (Std.ExtTreeMap.mem_toList_iff_getElem?_eq_some.mp hmem)
      rcases List.mem_cons.mp hn with rfl | hn
      · exact hk
      · rwa [List.mem_singleton.mp hn]
    rw [readCounters, contents, Option.getD_some, writeCounters, readNumbers_writeNumbers hfits,
      readPairs_append, ← Std.ExtTreeMap.insertMany_list_eq_foldl, insertMany_toList]

/-! ## All files -/

/-- What the destructor writes at the end of a process is what the next process reads. -/
structure RoundTrips (longBits : ℕ) (s : Process) : Prop where
  counters : (loadHistory longBits (dtorRuntime s) .init).oldCounterMap
    = mergeCounters s.counterMap s.oldCounterMap
  takens : ∀ taken, (loadHistory longBits (dtorRuntime s) .init).takens taken = s.takens taken
  traceMaps : (loadHistory longBits (dtorRuntime s) .init).traceMaps = s.traceMaps

/-- Everything that the destructor writes fits into a `long`. -/
structure FitsLong (longBits : ℕ) (s : Process) : Prop where
  counters : ∀ k v : UInt32, (mergeCounters s.counterMap s.oldCounterMap)[k]? = some v →
    k.toNat < 2 ^ (longBits - 1) ∧ v.toNat < 2 ^ (longBits - 1)
  takens : ∀ taken, ∀ id ∈ s.takens taken, id.toNat < 2 ^ (longBits - 1)
  traceMaps : ∀ id ∈ s.traceMaps, id.toNat < 2 ^ (longBits - 1)

/-- A `long` of 64 bits is wide enough for everything. -/
theorem fitsLong_64 (s : Process) : FitsLong 64 s := by
  have hlt : ∀ n : UInt32, n.toNat < 2 ^ 63 := fun n ↦ n.toNat_lt.trans (by norm_num)
  exact ⟨fun k v _ ↦ ⟨hlt k, hlt v⟩, fun _ id _ ↦ hlt id, fun id _ ↦ hlt id⟩

/-- The history is read back exactly if everything fits into a `long`. -/
theorem roundTrips_iff (longBits : ℕ) (s : Process) :
    RoundTrips longBits s ↔ FitsLong longBits s := by
  have hcounters : (loadHistory longBits (dtorRuntime s) .init).oldCounterMap
      = readCounters longBits
          (some (writeCounters (mergeCounters s.counterMap s.oldCounterMap))) ∅ :=
    loadHistory_oldCounterMap longBits _ _
  have htakens : ∀ taken, (loadHistory longBits (dtorRuntime s) .init).takens taken
      = readNumbers longBits (writeNumbers (s.takens taken)) := by
    intro taken
    rw [loadHistory_takens, prev_dtorRuntime]
    cases taken <;> rfl
  have htraces : (loadHistory longBits (dtorRuntime s) .init).traceMaps
      = readNumbers longBits (writeNumbers s.traceMaps) := loadHistory_traceMaps longBits _ _
  constructor
  · rintro ⟨hmap, hids, hmaps⟩
    refine ⟨?_, fun taken ↦ ?_, ?_⟩
    · exact (readCounters_writeCounters_iff longBits _).mp (hcounters.symm.trans hmap)
    · exact (readNumbers_writeNumbers_iff longBits _).mp ((htakens taken).symm.trans (hids taken))
    · exact (readNumbers_writeNumbers_iff longBits _).mp (htraces.symm.trans hmaps)
  · rintro ⟨hmap, hids, hmaps⟩
    refine ⟨?_, fun taken ↦ ?_, ?_⟩
    · exact hcounters.trans ((readCounters_writeCounters_iff longBits _).mpr hmap)
    · exact (htakens taken).trans ((readNumbers_writeNumbers_iff longBits _).mpr (hids taken))
    · exact htraces.trans ((readNumbers_writeNumbers_iff longBits _).mpr hmaps)

/-- An id that needs all 32 bits is lost where a `long` has no more. -/
theorem not_roundTrips : ¬ RoundTrips 32 { Process.init with traceMaps := [0x80000000] } := by
  intro h
  have hread : readNumbers 32 (writeNumbers [0x80000000]) = [0x80000000] := h.traceMaps
  rw [readNumbers_writeNumbers_eq] at hread
  exact absurd hread (by decide)

end PureConcolic

end Adacc
