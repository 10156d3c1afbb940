import Adacc.FuzzingHelper.ProcessTestcase

/-!
# Archived test cases

`copy_testcase`, called again and again with one directory. The name of a copy is made of the next
free id of the directory, padded to six digits, and six bytes of the name of the parent. A call
fails if that name has no id or if the file cannot be copied, and only a successful call moves the
id.

Names are the lossily decoded ones, so they are arbitrary texts. The id of a copy can be read back
from its name however many digits it has, since a comma follows it: `archiveName_inj`. The id counts
the calls that have succeeded, so every copy gets a name of its own, and a copy that fails half-way
has not touched an older file either.

`current_id` is a `u64` that wraps around. After `2 ^ 64` copies the names start again, and
`overwritten_after_wraparound` is a sequence that overwrites its first copy.
-/

namespace Adacc

namespace FuzzingHelper

/-! ## Names -/

/-- The name of a copy with the number `n`. -/
def archiveName (n : ℕ) (origId : List Char) : List Char :=
  "id:".toList ++ List.leftpad 6 '0' (TextFile.decimal n) ++ ",src:".toList ++ origId

theorem newName_eq (dir : TestcaseDir) (id : List Char) :
    dir.newName id = archiveName dir.currentId.toNat id := rfl

/-- The number in a name is what stands between the prefix and the comma. -/
theorem leadingNumber_archiveName (n : ℕ) (id : List Char) :
    TextFile.leadingNumber ((archiveName n id).drop 3) = n := by
  have hdrop : (archiveName n id).drop 3
      = List.leftpad 6 '0' (TextFile.decimal n) ++ (",src:".toList ++ id) := by
    rw [archiveName, List.append_assoc, List.append_assoc]
    rfl
  rw [hdrop]
  exact TextFile.leadingNumber_leftpad 6 n rfl

/-- Different numbers give different names. -/
theorem archiveName_inj {m n : ℕ} {id id' : List Char} (h : archiveName m id = archiveName n id') :
    m = n := by
  rw [← leadingNumber_archiveName m id, h, leadingNumber_archiveName]

/-! ## One call -/

/-- `TestcaseDir::new`, which has just created the directory. -/
def TestcaseDir.new (path : PathBuf) : TestcaseDir := ⟨path, 0, []⟩

/-- The arguments of a call, and how the file system answers. -/
structure CopyCall where
  fsCopy : PathBuf → Except Error Unit
  testcase : PathBuf
  parent : PathBuf

/-- A call that has returned. -/
structure Copied where
  before : TestcaseDir
  call : CopyCall
  after : TestcaseDir
  result : Except Error Unit

/-- The path that the call writes to, unless it fails before. -/
def Copied.target (c : Copied) : Option PathBuf := (origId c.call.parent).map c.before.target

/-- A successful call has copied the test case to its target. -/
theorem copyTestcase_ok {fsCopy : PathBuf → Except Error Unit} {testcase : PathBuf}
    {dir dir' : TestcaseDir} {parent : PathBuf}
    (h : copyTestcase fsCopy testcase dir parent = some (dir', .ok ())) :
    ∃ id, origId parent = some id ∧ fsCopy (dir.target id) = .ok () ∧
      dir' = dir.add id testcase := by
  unfold copyTestcase at h
  unfold origId
  cases hname : fileName parent with
  | none =>
    rw [hname] at h
    cases h
  | some origName =>
    rw [hname, Option.map_some, Option.some.injEq] at h
    rw [Option.bind_some]
    split at h
    · next hprefix =>
      rw [if_pos hprefix]
      cases hid : getRange origName 3 9 with
      | none =>
        rw [hid] at h
        cases (Prod.mk.inj h).2
      | some id =>
        simp only [hid] at h
        cases hcopy : fsCopy (dir.target id) with
        | error err =>
          rw [hcopy] at h
          cases (Prod.mk.inj h).2
        | ok u =>
          rw [hcopy] at h
          exact ⟨id, rfl, hcopy, (Prod.mk.inj h).1.symm⟩
    · cases (Prod.mk.inj h).2

/-- A failing call leaves the directory alone. -/
theorem copyTestcase_error {fsCopy : PathBuf → Except Error Unit} {testcase : PathBuf}
    {dir dir' : TestcaseDir} {parent : PathBuf} {err : Error}
    (h : copyTestcase fsCopy testcase dir parent = some (dir', .error err)) : dir' = dir := by
  obtain ⟨hnone, -⟩ | ⟨err', herr, -⟩ | ⟨id, hok, -⟩ :=
    copyTestcase_cases fsCopy testcase dir parent
  · rw [hnone] at h
    cases h
  · rw [herr] at h
    exact (Prod.mk.inj (Option.some.inj h)).1.symm
  · rw [hok] at h
    cases (Prod.mk.inj (Option.some.inj h)).2

/-! ## Sequences of calls -/

/-- The calls of a sequence that return; a panic ends the helper. -/
def copied : TestcaseDir → List CopyCall → List Copied
  | _, [] => []
  | dir, call :: calls =>
    match copyTestcase call.fsCopy call.testcase dir call.parent with
    | none => []
    | some (after, result) => ⟨dir, call, after, result⟩ :: copied after calls

/-- How many calls have succeeded. -/
def successes (cs : List Copied) : ℕ := cs.countP fun c ↦ c.result.isOk

/-- Archived test cases are never overwritten: the copies are numbered from zero, their names are
different, no call writes where an earlier one has created a file, and a failing call does not take
an id. -/
structure NeverOverwritten (path : PathBuf) (calls : List CopyCall) : Prop where
  consecutive : ∀ earlier c later, copied (.new path) calls = earlier ++ c :: later →
    c.result.isOk → ∃ id, c.target = some (path ++ [.normal (archiveName (successes earlier) id)]) ∧
      c.after.files = c.before.files ++ [(archiveName (successes earlier) id, c.call.testcase)]
  distinct : (((copied (.new path) calls).filter fun c ↦ c.result.isOk).map Copied.target).Nodup
  fresh : (copied (.new path) calls).Pairwise fun b c ↦ b.result.isOk → c.target ≠ b.target
  unchanged : ∀ c ∈ copied (.new path) calls, ¬ c.result.isOk →
    c.after.currentId = c.before.currentId

/-- What is known of a call by the calls before it. -/
theorem copied_split {dir : TestcaseDir} {calls : List CopyCall} {earlier later : List Copied}
    {c : Copied} (h : copied dir calls = earlier ++ c :: later) :
    copyTestcase c.call.fsCopy c.call.testcase c.before c.call.parent = some (c.after, c.result) ∧
      c.call ∈ calls ∧ c.before.path = dir.path ∧
      c.before.currentId = dir.currentId + UInt64.ofNat (successes earlier) := by
  induction calls generalizing dir earlier with
  | nil => exact absurd h.symm (List.append_ne_nil_of_right_ne_nil _ (List.cons_ne_nil _ _))
  | cons call calls ih =>
    rw [copied] at h
    cases hcall : copyTestcase call.fsCopy call.testcase dir call.parent with
    | none =>
      rw [hcall] at h
      exact absurd h.symm (List.append_ne_nil_of_right_ne_nil _ (List.cons_ne_nil _ _))
    | some p =>
      obtain ⟨after, result⟩ := p
      simp only [hcall] at h
      cases earlier with
      | nil =>
        obtain ⟨rfl, -⟩ := List.cons.inj h
        exact ⟨hcall, List.mem_cons_self, rfl, (UInt64.add_zero _).symm⟩
      | cons b earlier =>
        obtain ⟨rfl, hlater⟩ := List.cons.inj h
        obtain ⟨hreturned, hmem, hpath, hid⟩ := ih hlater
        refine ⟨hreturned, List.mem_cons_of_mem _ hmem, hpath.trans ?_, hid.trans ?_⟩
        · cases result with
          | error err => rw [copyTestcase_error hcall]
          | ok u =>
            obtain ⟨id, -, -, rfl⟩ := copyTestcase_ok hcall
            rfl
        · cases result with
          | error err =>
            rw [copyTestcase_error hcall, successes, successes, List.countP_cons_of_neg]
            exact Bool.false_ne_true
          | ok u =>
            obtain ⟨id, -, -, rfl⟩ := copyTestcase_ok hcall
            rw [successes, successes, List.countP_cons_of_pos rfl, UInt64.ofNat_add,
              UInt64.add_comm (UInt64.ofNat _), ← UInt64.add_assoc]
            rfl

/-- The same for a new directory: the path of the call's target, if it has one. -/
theorem target_split {path : PathBuf} {calls : List CopyCall} {earlier later : List Copied}
    {c : Copied} (h : copied (.new path) calls = earlier ++ c :: later) :
    c.target = (origId c.call.parent).map fun id ↦
      path ++ [.normal (archiveName (successes earlier % 2 ^ 64) id)] := by
  obtain ⟨-, -, hpath, hid⟩ := copied_split h
  have hnumber : c.before.currentId.toNat = successes earlier % 2 ^ 64 := by
    rw [hid, TestcaseDir.new, UInt64.zero_add, UInt64.toNat_ofNat']
  rw [Copied.target]
  congr 1
  funext id
  rw [TestcaseDir.target, newName_eq, hnumber, hpath]
  rfl

/-- A successful call has a target, and the file is there afterwards. -/
theorem Copied.of_isOk {c : Copied}
    (h : copyTestcase c.call.fsCopy c.call.testcase c.before c.call.parent
      = some (c.after, c.result)) (hok : c.result.isOk) :
    ∃ id, origId c.call.parent = some id ∧ c.after = c.before.add id c.call.testcase := by
  cases hresult : c.result with
  | error err =>
    rw [hresult] at hok
    cases hok
  | ok u =>
    rw [hresult] at h
    obtain ⟨id, hid, -, hafter⟩ := copyTestcase_ok h
    exact ⟨id, hid, hafter⟩

/-- What holds of any two members at different places holds pairwise. -/
theorem pairwise_of_splits {α : Type*} {R : α → α → Prop} {l : List α}
    (h : ∀ before x between y after, l = before ++ x :: (between ++ y :: after) → R x y) :
    l.Pairwise R := by
  induction l with
  | nil => exact List.Pairwise.nil
  | cons x l ih =>
    refine List.pairwise_cons.mpr ⟨fun y hy ↦ ?_, ih fun before x' between y after hl ↦ ?_⟩
    · obtain ⟨between, after, rfl⟩ := List.append_of_mem hy
      exact h [] x between y after rfl
    · exact h (x :: before) x' between y after (by rw [hl, List.cons_append])

/-- A call never writes where an earlier one has created a file. -/
theorem target_ne {path : PathBuf} {calls : List CopyCall} {before between after : List Copied}
    {b c : Copied} (h : copied (.new path) calls = before ++ b :: (between ++ c :: after))
    (hfew : successes (before ++ b :: between) < 2 ^ 64) (hb : b.result.isOk) :
    c.target ≠ b.target := by
  have hc : copied (.new path) calls = (before ++ b :: between) ++ c :: after := by
    rw [h, List.append_assoc, List.cons_append]
  have hlt : successes before < successes (before ++ b :: between) := by
    have hcount : successes (b :: between) = successes between + 1 := List.countP_cons_of_pos hb
    rw [successes, successes, List.countP_append, ← successes, ← successes, hcount]
    omega
  obtain ⟨id, hid, -⟩ := Copied.of_isOk (copied_split h).1 hb
  rw [target_split h, target_split hc, hid, Nat.mod_eq_of_lt hfew,
    Nat.mod_eq_of_lt (hlt.trans hfew)]
  intro heq
  obtain ⟨id', -, hpath⟩ := Option.map_eq_some_iff.mp heq
  have hname := List.append_cancel_left hpath
  rw [List.cons.injEq, Component.normal.injEq] at hname
  exact hlt.ne' (archiveName_inj hname.1)

/-- Nothing is overwritten as long as fewer than `2 ^ 64` calls have succeeded before each call. -/
theorem neverOverwritten {path : PathBuf} {calls : List CopyCall}
    (hfew : successes (copied (.new path) calls).dropLast < 2 ^ 64) :
    NeverOverwritten path calls := by
  have hearlier : ∀ earlier c later, copied (.new path) calls = earlier ++ c :: later →
      successes earlier < 2 ^ 64 := by
    intro earlier c later h
    refine lt_of_le_of_lt ?_ hfew
    rw [h, List.dropLast_append_of_ne_nil (List.cons_ne_nil _ _), successes, successes,
      List.countP_append]
    exact Nat.le_add_right _ _
  have hfresh : (copied (.new path) calls).Pairwise
      fun b c ↦ b.result.isOk → c.target ≠ b.target := by
    refine pairwise_of_splits fun before b between c after h hb ↦ target_ne h ?_ hb
    refine hearlier _ c after ?_
    rw [h, List.append_assoc, List.cons_append]
  refine ⟨?_, ?_, hfresh, ?_⟩
  · intro earlier c later h hok
    obtain ⟨hreturned, -, -, hid⟩ := copied_split h
    obtain ⟨id, horig, hafter⟩ := Copied.of_isOk hreturned hok
    have hnumber : c.before.currentId.toNat = successes earlier := by
      rw [hid, TestcaseDir.new, UInt64.zero_add, UInt64.toNat_ofNat',
        Nat.mod_eq_of_lt (hearlier earlier c later h)]
    refine ⟨id, ?_, ?_⟩
    · rw [target_split h, horig, Option.map_some, Nat.mod_eq_of_lt (hearlier earlier c later h)]
    · rw [hafter, TestcaseDir.add, newName_eq, hnumber]
  · rw [List.nodup_iff_pairwise_ne, List.pairwise_map, List.pairwise_filter]
    exact hfresh.imp fun hbc hb _ ↦ (hbc hb).symm
  · intro c hc hfailed
    obtain ⟨earlier, later, h⟩ := List.append_of_mem hc
    have hreturned := (copied_split h).1
    cases hresult : c.result with
    | ok u =>
      rw [hresult] at hfailed
      exact absurd rfl hfailed
    | error err =>
      rw [hresult] at hreturned
      rw [copyTestcase_error hreturned]

/-- Two copies around a call whose parent has no id. -/
theorem neverOverwritten_two_copies :
    NeverOverwritten [.normal "queue".toList]
      [⟨fun _ ↦ .ok (), [.normal ['t']], [.normal "id:000007,orig:ä".toList]⟩,
        ⟨fun _ ↦ .ok (), [.normal ['t']], [.normal "id:00000ä7".toList]⟩,
        ⟨fun _ ↦ .ok (), [.normal ['t']], [.normal "id:000007".toList]⟩] :=
  neverOverwritten (by decide)

/-! ## Wrapping around -/

/-- A call that succeeds in every directory, made `n` times. -/
theorem copied_replicate {call : CopyCall}
    (h : ∀ dir, ∃ after,
      copyTestcase call.fsCopy call.testcase dir call.parent = some (after, .ok ()))
    (dir : TestcaseDir) (n : ℕ) :
    (copied dir (List.replicate n call)).length = n ∧
      ∀ c ∈ copied dir (List.replicate n call), c.result.isOk := by
  induction n generalizing dir with
  | zero => exact ⟨rfl, List.forall_mem_nil _⟩
  | succ n ih =>
    obtain ⟨after, hafter⟩ := h dir
    obtain ⟨hlength, hok⟩ := ih after
    rw [List.replicate_succ, copied, hafter]
    exact ⟨congrArg (· + 1) hlength, List.forall_mem_cons.mpr ⟨rfl, hok⟩⟩

/-- After `2 ^ 64` copies the number is zero again, so the next call writes where the first did. -/
theorem overwritten_of_replicate {call : CopyCall}
    (h : ∀ dir, ∃ after,
      copyTestcase call.fsCopy call.testcase dir call.parent = some (after, .ok ()))
    (path : PathBuf) : ¬ NeverOverwritten path (List.replicate (2 ^ 64 + 1) call) := by
  obtain ⟨hlength, hok⟩ := copied_replicate h (.new path) (2 ^ 64 + 1)
  intro hnever
  have hfresh := hnever.fresh
  obtain ⟨b, rest, hcs⟩ := List.exists_cons_of_length_eq_add_one hlength
  rw [hcs] at hlength hok hfresh
  obtain rfl | ⟨between, c, rfl⟩ := List.eq_nil_or_concat rest
  · rw [List.length_singleton] at hlength
    omega
  · rw [List.concat_eq_append] at hcs hlength hok hfresh
    have hb : copied (.new path) (List.replicate (2 ^ 64 + 1) call) = [] ++ b :: (between ++ [c]) :=
      hcs
    have hc : copied (.new path) (List.replicate (2 ^ 64 + 1) call) = (b :: between) ++ c :: [] :=
      hcs
    -- every call before the last one has taken a number
    have hcount : successes (b :: between) = 2 ^ 64 := by
      have hall : ∀ c' ∈ b :: between, c'.result.isOk := fun c' hc' ↦
        hok c' (List.mem_append_left [c] hc')
      rw [successes, List.countP_eq_length.mpr hall]
      rw [← List.cons_append, List.length_append, List.length_singleton] at hlength
      omega
    have hcalls : b.call = c.call := by
      rw [List.eq_of_mem_replicate (copied_split hb).2.1,
        List.eq_of_mem_replicate (copied_split hc).2.1]
    refine (List.pairwise_cons.mp hfresh).1 c (List.mem_append_right _ List.mem_cons_self)
      (hok b List.mem_cons_self) ?_
    rw [target_split hb, target_split hc, hcount, hcalls]
    rfl

/-- So it happens to an input with an id, when all copies succeed. -/
theorem overwritten_after_wraparound :
    ¬ NeverOverwritten [.normal "queue".toList] (List.replicate (2 ^ 64 + 1)
      ⟨fun _ ↦ .ok (), [.normal ['t']], [.normal "id:000000,orig:seed".toList]⟩) :=
  overwritten_of_replicate (fun _ ↦ ⟨_, rfl⟩) _

end FuzzingHelper

end Adacc
