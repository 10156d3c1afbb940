import Adacc.Foundation.ByteText
import Adacc.Foundation.Selection
import Mathlib.Data.Prod.Lex
import Mathlib.Data.List.Lex

/-!
# Scheduling inputs

`symcc.rs`, `main.rs`: the helper runs SymCC on the best input in the queue of the fuzzer that it
has not processed yet, again and again. The best one has the greatest `TestcaseScore`: inputs with
new coverage first, then those that were derived from a seed, then smaller ones, then those with a
greater name. The two marks are looked for in the lossily decoded name, the names are compared byte
by byte.

A score contains the whole name of the file, so different files of the queue have different scores,
unless the score cannot be found out and is the minimum. So the choice never depends on how
`read_dir` lists the queue, and by `Selection.round_seenAfter` the files are taken in the order of
their scores.
-/

namespace Adacc

namespace FuzzingHelper

namespace Scheduling

/-! ## Names -/

/-- `OsString`, which need not be UTF-8. -/
structure OsString where
  bytes : List UInt8
  deriving DecidableEq

namespace OsString

/-- Names are compared byte by byte. -/
instance : LinearOrder OsString :=
  LinearOrder.lift' (fun s ↦ s.bytes.map UInt8.toFin) fun s t h ↦ by
    have hbytes := List.map_injective_iff.mpr (fun _ _ ↦ UInt8.toFin_inj.mp) h
    cases s
    cases t
    exact congrArg _ hbytes

/-- `to_string_lossy` -/
def toStringLossy (s : OsString) : List Char := ByteText.decodeLossy s.bytes

/-- `Path::display` -/
def display (s : OsString) : String := String.ofList s.toStringLossy

end OsString

/-- The path of an entry of a directory: `DirEntry::path`. -/
structure EntryPath where
  dir : OsString
  name : OsString
  deriving DecidableEq

/-- `Path::file_name`: the name of an entry is neither empty nor `..`. -/
def EntryPath.fileName (path : EntryPath) : Option OsString := some path.name

/-! ## Scores -/

/-- `TestcaseScore` -/
structure TestcaseScore where
  newCoverage : Bool
  derivedFromSeed : Bool
  fileSize : ℤ
  baseName : OsString
  deriving DecidableEq

namespace TestcaseScore

/-- The fields, most significant first, with the order that is derived for the record. -/
def key (score : TestcaseScore) : Bool ×ₗ Bool ×ₗ ℤ ×ₗ OsString :=
  toLex (score.newCoverage, toLex (score.derivedFromSeed, toLex (score.fileSize, score.baseName)))

private theorem key_injective : Function.Injective key := by
  rintro ⟨c, d, s, n⟩ ⟨c', d', s', n'⟩ h
  simp only [key, EmbeddingLike.apply_eq_iff_eq, Prod.mk.injEq] at h
  obtain ⟨rfl, rfl, rfl, rfl⟩ := h
  rfl

instance : LinearOrder TestcaseScore := LinearOrder.lift' key key_injective

/-- `TestcaseScore::minimum` -/
def minimum : TestcaseScore := ⟨false, false, -2 ^ 127, ⟨[]⟩⟩

/-- `TestcaseScore::new`, where `metadata` is the size of the file, if it can be read. -/
def new (metadata : Except (List String) UInt64) (fileName : Option OsString) : TestcaseScore :=
  match metadata with
  | .error _ => minimum
  | .ok size =>
    match fileName with
    | none => minimum
    | some name =>
      { newCoverage := decide ("+cov".toList <:+ name.toStringLossy)
        derivedFromSeed := decide ("orig:".toList <:+: name.toStringLossy)
        fileSize := -size.toNat
        baseName := name }

private theorem le_iff_key {s t : TestcaseScore} : s ≤ t ↔ s.key ≤ t.key := Iff.rfl

/-- No test case has a smaller score. -/
theorem minimum_le_new (metadata : Except (List String) UInt64) (fileName : Option OsString) :
    minimum ≤ new metadata fileName := by
  unfold new
  cases metadata with
  | error e => exact le_rfl
  | ok size =>
    cases fileName with
    | none => exact le_rfl
    | some name =>
      have hsize : (-2 ^ 127 : ℤ) < -size.toNat := by
        have := size.toNat_lt
        omega
      have hrest : toLex (-2 ^ 127, ⟨[]⟩) ≤ toLex (-(size.toNat : ℤ), name) :=
        Prod.Lex.toLex_le_toLex.mpr (.inl hsize)
      have hle : ∀ c d : Bool, minimum ≤ ⟨c, d, -size.toNat, name⟩ := by
        intro c d
        rw [le_iff_key, key, key, minimum, Prod.Lex.toLex_le_toLex, Prod.Lex.toLex_le_toLex]
        cases c <;> cases d <;> simp only [hrest] <;> decide
      exact hle _ _

end TestcaseScore

/-! ## Choosing an input -/

/-- What the file system says about paths. -/
structure FileSystem where
  isFile : EntryPath → Bool
  metadata : EntryPath → Except (List String) UInt64

/-- The score of a path. -/
def FileSystem.score (fs : FileSystem) (path : EntryPath) : TestcaseScore :=
  .new (fs.metadata path) path.fileName

/-- What `read_dir` yields: an error, or for each entry its name or an error. -/
abbrev ReadDir := Except (List String) (List (Except (List String) OsString))

/-- `AflConfig::best_new_testcase` -/
def bestNewTestcase (fs : FileSystem) (queue : OsString) (readDir : ReadDir)
    (seen : List EntryPath) : Except (List String) (Option EntryPath) :=
  match readDir with
  | .error e => .error (("Failed to open the fuzzer's queue at " ++ queue.display) :: e)
  | .ok entries =>
    match entries.mapM id with
    | .error e => .error (("Failed to read the fuzzer's queue at " ++ queue.display) :: e)
    | .ok names =>
      .ok (Selection.maxByKey fs.score ((names.map fun name ↦ ⟨queue, name⟩).filter
        fun path ↦ fs.isFile path && !seen.contains path))

/-- The inputs that have been processed after some turns of the loop of `main`, when the queue is
listed as `readDirs` says. -/
def processed (fs : FileSystem) (queue : OsString) (readDirs : ℕ → ReadDir) :
    ℕ → List EntryPath
  | 0 => []
  | n + 1 =>
    let seen := processed fs queue readDirs n
    match bestNewTestcase fs queue (readDirs n) seen with
    | .ok (some path) => path :: seen
    | _ => seen

/-- What a turn of the loop chooses. -/
def chosen (fs : FileSystem) (queue : OsString) (readDirs : ℕ → ReadDir) (n : ℕ) :
    Except (List String) (Option EntryPath) :=
  bestNewTestcase fs queue (readDirs n) (processed fs queue readDirs n)

/-! ## The order of inputs -/

/-- The size of a file. -/
def FileSystem.size (fs : FileSystem) (path : EntryPath) : ℕ :=
  match fs.metadata path with
  | .error _ => 0
  | .ok size => size.toNat

/-- The order in which inputs are processed: by the suffix `+cov`, by `orig:` in the name, by size
and by name. -/
def Precedes (fs : FileSystem) (a b : EntryPath) : Prop :=
  let cov (p : EntryPath) := ByteText.ascii "+cov".toList <:+ p.name.bytes
  let orig (p : EntryPath) := ByteText.ascii "orig:".toList <:+: p.name.bytes
  (cov a ∧ ¬ cov b) ∨ (cov a ↔ cov b) ∧ ((orig a ∧ ¬ orig b) ∨ (orig a ↔ orig b) ∧
    (fs.size a < fs.size b ∨ fs.size a = fs.size b ∧ b.name < a.name))

/-- The score of a file whose size can be read, in terms of the bytes of its name. -/
theorem score_eq {fs : FileSystem} {path : EntryPath} {size : UInt64}
    (h : fs.metadata path = .ok size) :
    fs.score path =
      { newCoverage := decide (ByteText.ascii "+cov".toList <:+ path.name.bytes)
        derivedFromSeed := decide (ByteText.ascii "orig:".toList <:+: path.name.bytes)
        fileSize := -fs.size path
        baseName := path.name } := by
  have hcov := ByteText.isSuffix_decodeLossy (p := "+cov".toList) rfl path.name.bytes
  have horig := ByteText.isInfix_decodeLossy (p := "orig:".toList) rfl path.name.bytes
  have hsize : fs.size path = size.toNat := by rw [FileSystem.size, h]
  rw [FileSystem.score, h, hsize]
  simp only [TestcaseScore.new, EntryPath.fileName, OsString.toStringLossy, hcov, horig]

private theorem decide_lt_decide_iff {p q : Prop} [Decidable p] [Decidable q] :
    decide p < decide q ↔ q ∧ ¬ p := by
  by_cases hp : p <;> by_cases hq : q <;> simp [hp, hq]

/-- Greater scores come first. -/
theorem score_lt_iff {fs : FileSystem} {a b : EntryPath} (ha : ∃ size, fs.metadata a = .ok size)
    (hb : ∃ size, fs.metadata b = .ok size) : fs.score b < fs.score a ↔ Precedes fs a b := by
  obtain ⟨sizeA, ha⟩ := ha
  obtain ⟨sizeB, hb⟩ := hb
  have hkey : fs.score b < fs.score a ↔ (fs.score b).key < (fs.score a).key := Iff.rfl
  rw [hkey, score_eq ha, score_eq hb, TestcaseScore.key, TestcaseScore.key]
  simp only [Prod.Lex.toLex_lt_toLex, decide_lt_decide_iff, decide_eq_decide, neg_lt_neg_iff,
    neg_inj, Nat.cast_lt, Nat.cast_inj, Precedes]
  rw [@iff_comm (_ <:+ b.name.bytes), @iff_comm (_ <:+: b.name.bytes), @eq_comm _ (fs.size b)]

/-! ## Turns of the loop -/

/-- The files of the queue. -/
def files (fs : FileSystem) (queue : OsString) (names : List OsString) : List EntryPath :=
  (names.map fun name ↦ ⟨queue, name⟩).filter fs.isFile

private theorem mapM_ok {ε α : Type*} (l : List α) :
    (l.map (Except.ok : α → Except ε α)).mapM id = .ok l := by
  induction l with
  | nil => rfl
  | cons a l ih =>
    rw [List.map_cons, List.mapM_cons, ih]
    rfl

/-- When the queue can be listed, a turn is a round of the selection by scores. -/
theorem bestNewTestcase_eq (fs : FileSystem) (queue : OsString) (names : List OsString)
    (seen : List EntryPath) :
    bestNewTestcase fs queue (.ok (names.map .ok)) seen
      = .ok (Selection.round fs.score (files fs queue names) seen) := by
  unfold bestNewTestcase
  simp only [mapM_ok]
  rw [Selection.round, files, List.filter_filter]
  congr 3
  funext path
  rw [Bool.and_comm, List.contains_eq_mem, decide_not]

private theorem processed_eq (fs : FileSystem) (queue : OsString) (listings : ℕ → List OsString)
    (n : ℕ) : processed fs queue (fun i ↦ .ok ((listings i).map .ok)) n
      = Selection.seenAfter fs.score (fun i ↦ files fs queue (listings i)) n := by
  induction n with
  | zero => rfl
  | succ n ih =>
    rw [processed, Selection.seenAfter, ih, bestNewTestcase_eq]
    cases Selection.round fs.score (files fs queue (listings n)) _ <;> rfl

/-- Files of one queue with different names have different scores. -/
theorem eq_of_score_eq {fs : FileSystem} {a b : EntryPath} (ha : ∃ size, fs.metadata a = .ok size)
    (hb : ∃ size, fs.metadata b = .ok size) (hdir : a.dir = b.dir)
    (h : fs.score a = fs.score b) : a = b := by
  obtain ⟨sizeA, ha⟩ := ha
  obtain ⟨sizeB, hb⟩ := hb
  rw [score_eq ha, score_eq hb, TestcaseScore.mk.injEq] at h
  cases a
  cases b
  rw [EntryPath.mk.injEq]
  exact ⟨hdir, h.2.2.2⟩

/-- The files of the queue are chosen once each and then nothing is chosen, in an order that does
not depend on the listings: by the suffix `+cov`, by `orig:` in the name, by size and by name. -/
theorem scheduling_exhaustive (fs : FileSystem) (queue : OsString) {names : List OsString}
    (hnames : names.Nodup)
    (hmetadata : ∀ path ∈ files fs queue names, ∃ size, fs.metadata path = .ok size) :
    ∃ order : List EntryPath,
      order.Perm (files fs queue names) ∧ order.Pairwise (Precedes fs) ∧
        ∀ listings : ℕ → List OsString, (∀ i, (listings i).Perm names) → ∀ i,
          chosen fs queue (fun i ↦ .ok ((listings i).map .ok)) i = .ok order[i]? := by
  have hdir : ∀ path ∈ files fs queue names, path.dir = queue := by
    intro path hpath
    obtain ⟨name, -, rfl⟩ := List.mem_map.mp (List.mem_filter.mp hpath).1
    rfl
  have hnodup : (files fs queue names).Nodup := by
    refine (List.Nodup.map ?_ hnames).filter _
    exact fun a b hab ↦ (EntryPath.mk.inj hab).2
  have hperm : (Selection.ordered fs.score (files fs queue names)).Perm (files fs queue names) :=
    List.mergeSort_perm _ _
  have horder := Selection.pairwise_ordered hnodup fun a ha b hb ↦
    eq_of_score_eq (hmetadata a ha) (hmetadata b hb) ((hdir a ha).trans (hdir b hb).symm)
  refine ⟨_, hperm, horder.imp_of_mem fun ha hb ↦ ?_, fun listings hlistings i ↦ ?_⟩
  · exact (score_lt_iff (hmetadata _ (hperm.mem_iff.mp ha)) (hmetadata _ (hperm.mem_iff.mp hb))).mp
  · have hmem : ∀ n a, a ∈ files fs queue (listings n) ↔
        a ∈ Selection.ordered fs.score (files fs queue names) := fun n a ↦
      (((hlistings n).map _).filter _).mem_iff.trans hperm.mem_iff.symm
    rw [chosen, processed_eq, bestNewTestcase_eq, Selection.round_seenAfter horder hmem]

/-- A queue with a seed, an input with new coverage and a directory. -/
theorem scheduling_exhaustive_queue :
    let fs : FileSystem :=
      ⟨fun path ↦ path.name.bytes ≠ ByteText.ascii ".state".toList, fun _ ↦ .ok 3⟩
    let names : List OsString := [⟨ByteText.ascii "id:000000,orig:a".toList⟩,
      ⟨ByteText.ascii ".state".toList⟩, ⟨ByteText.ascii "id:000001,+cov".toList⟩]
    ∃ order : List EntryPath, order.Perm (files fs ⟨[0x71]⟩ names) ∧
      order.Pairwise (Precedes fs) ∧
        ∀ listings : ℕ → List OsString, (∀ i, (listings i).Perm names) → ∀ i,
          chosen fs ⟨[0x71]⟩ (fun i ↦ .ok ((listings i).map .ok)) i = .ok order[i]? :=
  scheduling_exhaustive _ _ (by decide) fun _ _ ↦ ⟨3, rfl⟩

end Scheduling

end FuzzingHelper

end Adacc
