import Adacc.Foundation.Machine
import Mathlib.Data.List.Forall2
import Mathlib.Data.List.Infix
import Mathlib.Data.Set.Finite.Basic
import Mathlib.Data.UInt

/-!
# The generational driver

`pure_concolic_execution.sh` runs the target on one generation of inputs after the other. A
generation consists of the files in `next`: new files of the input directory, and whatever the runs
of the previous generation have left in the target's output directory, named by hash. The names of
the files that have been run on are kept in `analyzed_inputs`.

Only files from the input directory are looked up in `analyzed_inputs`. The output directory is
copied as a whole after every run, and it is never emptied, so once it holds a file every further
generation has one. The script finishes only if no initial input makes the target write anything
(`finishesOnce_iff`).

The target and `sha256sum` are functions of the content of a file. File names contain nothing that
is special to the shell, nor to `grep` except for dots, and do not start with a dot or a hyphen.
-/

namespace Adacc

namespace PureConcolicExecution

/-- The bytes of a file. -/
abbrev Content := List UInt8

/-- A directory, with its files in the order in which `*` lists them. -/
abbrev Dir := Std.ExtTreeMap String Content

/-- The work environment, the output directory if there is one, and the contents on which the
target has been run. -/
structure Work where
  next : Dir
  symccOut : Dir
  analyzedInputs : List String
  out : Option Dir
  executed : List Content

/-- The work environment as it is created. -/
def Work.create (out : Option Dir) : Work where
  next := ∅
  symccOut := ∅
  analyzedInputs := []
  out := out
  executed := []

section Script

variable (sha256sum : Content → String)

/-- `copy_with_unique_name` -/
def copyWithUniqueName (sourceDir destDir : Dir) : Dir :=
  if sourceDir.isEmpty then destDir
  else sourceDir.toList.foldl (fun dest f ↦ dest.insert (sha256sum f.2) f.2) destDir

/-- `add_to_next_generation` -/
def addToNextGeneration (sourceDir : Dir) (w : Work) : Work :=
  { w with next := copyWithUniqueName sha256sum sourceDir w.next }

/-- `maybe_export` -/
def maybeExport (sourceDir : Dir) (w : Work) : Work :=
  { w with out := w.out.map (copyWithUniqueName sha256sum sourceDir) }

/-- The text begins with what the pattern matches. A dot matches every character. -/
def matchesPrefix : List Char → List Char → Bool
  | [], _ => true
  | _ :: _, [] => false
  | p :: pattern, c :: text => (p == '.' || p == c) && matchesPrefix pattern text

/-- `grep -q`: some part of a line matches the pattern. -/
def grepQ (pattern : String) (lines : List String) : Bool :=
  lines.any fun line ↦ line.toList.tails.any (matchesPrefix pattern.toList)

/-- One turn of the loop in `maybe_import`. -/
def importFile (analyzedInputs : List String) (next : Dir) (f : String × Content) : Dir :=
  if grepQ f.1 analyzedInputs then next
  else if next.contains f.1 then next
  else next.insert f.1 f.2

/-- `maybe_import` -/
def maybeImport (input : Dir) (w : Work) : Work :=
  if input.isEmpty then w
  else { w with next := input.toList.foldl (importFile w.analyzedInputs) w.next }

variable (target : Content → List (String × Content))

/-- The target's run on one file of the current generation, and what the script does after it.
`target` gives the files that the run writes. -/
def runOn (w : Work) (f : String × Content) : Work :=
  let w :=
    { w with
      symccOut := w.symccOut.insertMany (target f.2)
      executed := w.executed ++ [f.2] }
  let w := addToNextGeneration sha256sum w.symccOut w
  let w := maybeExport sha256sum w.symccOut w
  { w with analyzedInputs := w.analyzedInputs ++ [f.1] }

/-- One turn of the main loop, and whether it is the last one. -/
def generation (input : Dir) (w : Work) : Work × Bool :=
  let w := maybeImport input w
  let cur := w.next
  let w := { w with next := ∅ }
  if cur.isEmpty then (w, true) else (cur.toList.foldl (runOn sha256sum target) w, false)

/-- The main loop, given up after some turns. -/
def mainLoop (input : Dir) : ℕ → Work → Option Work
  | 0, _ => none
  | turns + 1, w =>
    match generation sha256sum target input w with
    | (w, true) => some w
    | (w, false) => mainLoop input turns w

end Script

/-- The files of a directory are named by their hash. -/
def NamedByHash (sha256sum : Content → String) (dir : Dir) : Prop :=
  ∀ f c, dir[f]? = some c → f = sha256sum c

/-- The contents that the inputs lead to. -/
inductive Generated (input : Dir) (target : Content → List (String × Content)) : Content → Prop
  | input {f : String} {c : Content} (h : input[f]? = some c) : Generated input target c
  | output {c d : Content} {f : String} (hc : Generated input target c) (h : (f, d) ∈ target c) :
      Generated input target d

/-- The main loop reaches its last turn, and until then the target has been run exactly once on
each content that the inputs lead to, and on no other. -/
def FinishesOnce (sha256sum : Content → String) (target : Content → List (String × Content))
    (input : Dir) (out : Option Dir) : Prop :=
  ∃ turns w, mainLoop sha256sum target input turns (.create out) = some w ∧ w.executed.Nodup ∧
    ∀ c, c ∈ w.executed ↔ Generated input target c

/-- No input makes the target write a file. -/
def Quiet (target : Content → List (String × Content)) (input : Dir) : Prop :=
  ∀ (f : String) (c : Content), input[f]? = some c → target c = []

variable {sha256sum : Content → String} {target : Content → List (String × Content)} {input : Dir}

/-! ## Importing -/

theorem mem_foldl_importFile {analyzedInputs : List String} {l : List (String × Content)}
    {next : Dir} {f : String} {c : Content}
    (h : (l.foldl (importFile analyzedInputs) next)[f]? = some c) :
    next[f]? = some c ∨ (f, c) ∈ l ∧ grepQ f analyzedInputs = false := by
  induction l generalizing next with
  | nil => exact .inl h
  | cons g l ih =>
    rw [List.foldl_cons] at h
    rcases ih h with hnext | ⟨hmem, hgrep⟩
    · unfold importFile at hnext
      split at hnext
      · exact .inl hnext
      · next hgrep =>
        split at hnext
        · exact .inl hnext
        · rw [Std.ExtTreeMap.getElem?_insert] at hnext
          split at hnext
          · next heq =>
            have hname : g.1 = f := Std.LawfulEqOrd.eq_of_compare heq
            rw [← hname, ← Option.some.inj hnext]
            exact .inr ⟨List.mem_cons_self, Bool.eq_false_of_not_eq_true hgrep⟩
          · exact .inl hnext
    · exact .inr ⟨List.mem_cons_of_mem _ hmem, hgrep⟩

private theorem contains_importFile {analyzedInputs : List String} {next : Dir}
    {g : String × Content} {f : String} (h : next.contains f = true) :
    (importFile analyzedInputs next g).contains f = true := by
  unfold importFile
  split
  · exact h
  · split
    · exact h
    · rw [Std.ExtTreeMap.contains_insert, h, Bool.or_true]

theorem contains_foldl_importFile_of_contains {analyzedInputs : List String}
    {l : List (String × Content)} {next : Dir} {f : String} (h : next.contains f = true) :
    (l.foldl (importFile analyzedInputs) next).contains f = true := by
  induction l generalizing next with
  | nil => exact h
  | cons g l ih => exact ih (contains_importFile h)

theorem contains_foldl_importFile (analyzedInputs : List String) {l : List (String × Content)}
    (next : Dir) {f : String} {c : Content} (h : (f, c) ∈ l)
    (hgrep : grepQ f analyzedInputs = false) :
    (l.foldl (importFile analyzedInputs) next).contains f = true := by
  induction l generalizing next with
  | nil => exact absurd h List.not_mem_nil
  | cons g l ih =>
    rw [List.foldl_cons]
    rcases List.mem_cons.mp h with rfl | h
    · apply contains_foldl_importFile_of_contains
      unfold importFile
      rw [if_neg (by rw [hgrep]; exact Bool.false_ne_true)]
      split
      · next hnext => exact hnext
      · exact Std.ExtTreeMap.contains_insert_self
    · exact ih _ h

/-- At the beginning every input is imported. -/
theorem next_maybeImport_create (input : Dir) (out : Option Dir) :
    (maybeImport input (.create out)).next = input := by
  unfold maybeImport
  split
  · next hempty => exact (Std.ExtTreeMap.isEmpty_iff.mp hempty).symm
  · apply Std.ExtTreeMap.ext_getElem?
    intro f
    cases hf : input[f]? with
    | none =>
      rw [Option.eq_none_iff_forall_ne_some]
      intro c hc
      rcases mem_foldl_importFile hc with hc | ⟨hc, -⟩
      · rw [Work.create, Std.ExtTreeMap.getElem?_empty] at hc
        cases hc
      · rw [Std.ExtTreeMap.mem_toList_iff_getElem?_eq_some, hf] at hc
        cases hc
    | some c =>
      have hmem : (f, c) ∈ input.toList := Std.ExtTreeMap.mem_toList_iff_getElem?_eq_some.mpr hf
      have hcontains := contains_foldl_importFile [] (Work.create out).next hmem rfl
      rw [Std.ExtTreeMap.contains_eq_isSome_getElem?, Option.isSome_iff_exists] at hcontains
      obtain ⟨c', hc'⟩ := hcontains
      refine hc'.trans ?_
      rcases mem_foldl_importFile hc' with hc | ⟨hc, -⟩
      · rw [Work.create, Std.ExtTreeMap.getElem?_empty] at hc
        cases hc
      · rwa [Std.ExtTreeMap.mem_toList_iff_getElem?_eq_some, hf, eq_comm] at hc

private theorem matchesPrefix_iff {pattern text : List Char} :
    matchesPrefix pattern text = true ↔
      ∃ part, part <+: text ∧ List.Forall₂ (fun p c ↦ p = '.' ∨ p = c) pattern part := by
  induction pattern generalizing text with
  | nil => exact iff_of_true rfl ⟨[], List.nil_prefix, .nil⟩
  | cons p pattern ih =>
    cases text with
    | nil =>
      refine iff_of_false Bool.false_ne_true fun ⟨part, hpart, hmatch⟩ ↦ ?_
      rw [List.prefix_nil.mp hpart] at hmatch
      cases hmatch
    | cons c text =>
      rw [matchesPrefix, Bool.and_eq_true, Bool.or_eq_true, beq_iff_eq, beq_iff_eq, ih]
      constructor
      · rintro ⟨hp, part, hpart, hmatch⟩
        exact ⟨c :: part, List.cons_prefix_cons.mpr ⟨rfl, hpart⟩, .cons hp hmatch⟩
      · rintro ⟨_, hpart, hmatch⟩
        cases hmatch with
        | cons hp hmatch =>
          obtain ⟨rfl, hrest⟩ := List.cons_prefix_cons.mp hpart
          exact ⟨hp, _, hrest, hmatch⟩

/-- A part of the line is the name, except where the name has a dot. -/
def FoundIn (f line : String) : Prop :=
  ∃ part, part <:+: line.toList ∧ List.Forall₂ (fun p c ↦ p = '.' ∨ p = c) f.toList part

theorem grepQ_iff {f : String} {lines : List String} :
    grepQ f lines = true ↔ ∃ line ∈ lines, FoundIn f line := by
  rw [grepQ, List.any_eq_true]
  refine exists_congr fun line ↦ and_congr_right' ?_
  simp only [List.any_eq_true, List.mem_tails, matchesPrefix_iff]
  constructor
  · rintro ⟨rest, hrest, part, hpart, hmatch⟩
    exact ⟨part, hpart.isInfix.trans hrest.isInfix, hmatch⟩
  · rintro ⟨part, hpart, hmatch⟩
    obtain ⟨rest, hprefix, hsuffix⟩ := List.infix_iff_prefix_suffix.mp hpart
    exact ⟨rest, hsuffix, part, hprefix, hmatch⟩

theorem FoundIn.refl (f : String) : FoundIn f f :=
  ⟨f.toList, List.infix_refl _, List.forall₂_same.mpr fun _ _ ↦ .inr rfl⟩

theorem grepQ_of_mem {f : String} {lines : List String} (h : f ∈ lines) : grepQ f lines = true :=
  grepQ_iff.mpr ⟨f, h, .refl f⟩

/-- Inputs that have been run on are not imported again. -/
theorem next_maybeImport_of_analyzed {w : Work} (hnext : w.next = ∅)
    (h : ∀ f c, input[f]? = some c → f ∈ w.analyzedInputs) : (maybeImport input w).next = ∅ := by
  unfold maybeImport
  split
  · exact hnext
  · apply Std.ExtTreeMap.ext_getElem?
    intro f
    rw [Std.ExtTreeMap.getElem?_empty, Option.eq_none_iff_forall_ne_some]
    intro c hc
    rcases mem_foldl_importFile hc with hc | ⟨hc, hgrep⟩
    · rw [hnext, Std.ExtTreeMap.getElem?_empty] at hc
      cases hc
    · rw [Std.ExtTreeMap.mem_toList_iff_getElem?_eq_some] at hc
      rw [grepQ_of_mem (h f c hc)] at hgrep
      cases hgrep

/-! ## Without outputs -/

/-- Runs that write nothing only leave their names and themselves. -/
theorem foldl_runOn_quiet (sha256sum : Content → String) {l : List (String × Content)}
    (h : ∀ f ∈ l, target f.2 = []) {w : Work} (hout : w.symccOut = ∅) :
    let w' := l.foldl (runOn sha256sum target) w
    w'.next = w.next ∧ w'.symccOut = ∅ ∧ w'.analyzedInputs = w.analyzedInputs ++ l.map Prod.fst ∧
      w'.executed = w.executed ++ l.map Prod.snd := by
  induction l generalizing w with
  | nil => simp [hout]
  | cons f l ih =>
    obtain ⟨hf, hl⟩ := List.forall_mem_cons.mp h
    have hempty : (runOn sha256sum target w f).symccOut = ∅ := by
      rw [runOn, hf]
      exact hout
    have hsame : (runOn sha256sum target w f).next = w.next := by
      show copyWithUniqueName sha256sum (w.symccOut.insertMany (target f.2)) w.next = w.next
      rw [hf, hout]
      rfl
    obtain ⟨hnext, hsymcc, hanalyzed, hexecuted⟩ := ih hl hempty
    rw [List.foldl_cons]
    refine ⟨hnext.trans hsame, hsymcc, ?_, ?_⟩
    · rw [hanalyzed, List.map_cons]
      exact List.append_assoc _ [f.1] _
    · rw [hexecuted, List.map_cons]
      exact List.append_assoc _ [f.2] _

/-- Files with distinct names that are named by their hash have distinct contents. -/
theorem nodup_contents (h : NamedByHash sha256sum input) : (input.toList.map Prod.snd).Nodup := by
  rw [List.Nodup, List.pairwise_map]
  refine Std.ExtTreeMap.distinct_keys_toList.imp_of_mem fun {f g} hf hg hne hcontent ↦ hne ?_
  rw [Std.ExtTreeMap.mem_toList_iff_getElem?_eq_some] at hf hg
  rw [h f.1 f.2 hf, h g.1 g.2 hg, hcontent]
  exact Std.ReflCmp.compare_self

private theorem generated_iff_of_quiet (h : Quiet target input) (c : Content) :
    Generated input target c ↔ c ∈ input.toList.map Prod.snd := by
  simp only [List.mem_map, Prod.exists, Std.ExtTreeMap.mem_toList_iff_getElem?_eq_some]
  constructor
  · intro hc
    induction hc with
    | input hc => exact ⟨_, _, hc, rfl⟩
    | output _ hd ih =>
      obtain ⟨f, c, hc, rfl⟩ := ih
      rw [h f c hc] at hd
      exact absurd hd List.not_mem_nil
  · rintro ⟨f, c, hc, rfl⟩
    exact .input hc

private theorem generation_empty {w : Work} (h : (maybeImport input w).next = ∅) :
    generation sha256sum target input w = ({ maybeImport input w with next := ∅ }, true) := by
  rw [generation]
  simp only [h]
  rfl

theorem generation_nonempty (sha256sum : Content → String)
    (target : Content → List (String × Content)) {w : Work}
    (h : (maybeImport input w).next.isEmpty = false) :
    generation sha256sum target input w
      = ((maybeImport input w).next.toList.foldl (runOn sha256sum target)
          { maybeImport input w with next := ∅ }, false) := by
  rw [generation]
  simp only [h]
  rfl

theorem maybeImport_eq (w : Work) :
    maybeImport input w = { w with next := (maybeImport input w).next } := by
  unfold maybeImport
  split <;> rfl

private theorem finishesOnce_of_quiet (hname : NamedByHash sha256sum input) (out : Option Dir)
    (h : Quiet target input) : FinishesOnce sha256sum target input out := by
  have hfiles : ∀ f ∈ input.toList, target f.2 = [] := fun f hf ↦
    h f.1 f.2 (Std.ExtTreeMap.mem_toList_iff_getElem?_eq_some.mp hf)
  have hstart := next_maybeImport_create input out
  cases hempty : input.isEmpty with
  | true =>
    obtain rfl := Std.ExtTreeMap.isEmpty_iff.mp hempty
    refine ⟨1, { Work.create out with next := ∅ }, rfl, List.nodup_nil, fun c ↦ ?_⟩
    rw [generated_iff_of_quiet h]
    rfl
  | false =>
    -- the first generation is the inputs, the second one is empty
    have hfirst := generation_nonempty sha256sum target (hstart.symm ▸ hempty)
    rw [hstart] at hfirst
    set w := input.toList.foldl (runOn sha256sum target)
      { maybeImport input (.create out) with next := ∅ } with hw
    have hquiet := foldl_runOn_quiet sha256sum hfiles
      (w := { maybeImport input (.create out) with next := ∅ })
      (by rw [maybeImport_eq]; rfl)
    rw [← hw, maybeImport_eq] at hquiet
    obtain ⟨hnext, -, hanalyzed, hexecuted⟩ := hquiet
    have hsecond : (maybeImport input w).next = ∅ := by
      refine next_maybeImport_of_analyzed hnext fun f c hf ↦ ?_
      rw [hanalyzed]
      exact List.mem_append_right _ (List.mem_map.mpr
        ⟨(f, c), Std.ExtTreeMap.mem_toList_iff_getElem?_eq_some.mpr hf, rfl⟩)
    refine ⟨2, { maybeImport input w with next := ∅ }, ?_, ?_, fun c ↦ ?_⟩
    · rw [mainLoop, hfirst]
      dsimp only
      rw [mainLoop, generation_empty hsecond]
    · rw [maybeImport_eq]
      dsimp only
      rw [hexecuted]
      exact nodup_contents hname
    · rw [maybeImport_eq, generated_iff_of_quiet h]
      dsimp only
      rw [hexecuted]
      rfl

/-! ## With outputs -/

/-- There are files for the next generation and in the target's output directory. -/
structure Busy (w : Work) : Prop where
  next : w.next.isEmpty = false
  symccOut : w.symccOut.isEmpty = false

private theorem isEmpty_foldl_insert {l : List (String × Content)} {dest : Dir}
    (h : dest.isEmpty = false ∨ l ≠ []) :
    (l.foldl (fun dest f ↦ dest.insert (sha256sum f.2) f.2) dest).isEmpty = false := by
  induction l generalizing dest with
  | nil => exact h.resolve_right fun h ↦ h rfl
  | cons f l ih =>
    rw [List.foldl_cons]
    refine ih (.inl ?_)
    rw [← Std.ExtTreeMap.insertMany_list_singleton, Std.ExtTreeMap.isEmpty_insertMany_list,
      List.isEmpty_cons, Bool.and_false]

private theorem isEmpty_copyWithUniqueName {sourceDir destDir : Dir}
    (h : sourceDir.isEmpty = false ∨ destDir.isEmpty = false) :
    (copyWithUniqueName sha256sum sourceDir destDir).isEmpty = false := by
  unfold copyWithUniqueName
  split
  · next hempty => exact h.resolve_left (ne_false_of_eq_true hempty)
  · next hne =>
    refine isEmpty_foldl_insert (.inr fun hnil ↦ hne ?_)
    rw [← Std.ExtTreeMap.isEmpty_toList, hnil, List.isEmpty_nil]

/-- A run after which the output directory holds a file. -/
theorem busy_runOn {w : Work} {f : String × Content}
    (h : w.symccOut.isEmpty = false ∨ target f.2 ≠ []) : Busy (runOn sha256sum target w f) := by
  have hsymcc : (w.symccOut.insertMany (target f.2)).isEmpty = false := by
    rw [Std.ExtTreeMap.isEmpty_insertMany_list, Bool.and_eq_false_iff]
    exact h.imp_right fun hne ↦ by simpa using hne
  exact ⟨isEmpty_copyWithUniqueName (.inl hsymcc), hsymcc⟩

theorem Busy.foldl_runOn {w : Work} (h : Busy w) (l : List (String × Content)) :
    Busy (l.foldl (runOn sha256sum target) w) := by
  induction l generalizing w with
  | nil => exact h
  | cons f l ih => exact ih (busy_runOn (.inl h.symccOut))

/-- A generation with a run after which the output directory holds a file. -/
theorem busy_foldl_runOn {l : List (String × Content)} {w : Work} {f : String × Content}
    (hf : f ∈ l) (h : w.symccOut.isEmpty = false ∨ target f.2 ≠ []) :
    Busy (l.foldl (runOn sha256sum target) w) := by
  induction l generalizing w with
  | nil => exact absurd hf List.not_mem_nil
  | cons g l ih =>
    rw [List.foldl_cons]
    rcases List.mem_cons.mp hf with rfl | hf
    · exact (busy_runOn h).foldl_runOn l
    · refine ih hf (h.imp_left fun hsymcc ↦ ?_)
      exact (busy_runOn (.inl hsymcc)).symccOut

private theorem isEmpty_foldl_importFile {analyzedInputs : List String}
    {l : List (String × Content)} {next : Dir} (h : next.isEmpty = false) :
    (l.foldl (importFile analyzedInputs) next).isEmpty = false := by
  rw [Std.ExtTreeMap.isEmpty_eq_false_iff, Std.ExtTreeMap.eq_empty_iff_forall_contains] at h ⊢
  refine fun hempty ↦ h fun f ↦ Bool.eq_false_of_not_eq_true fun hf ↦ ?_
  have hcontains : (l.foldl (importFile analyzedInputs) next).contains f = true :=
    contains_foldl_importFile_of_contains hf
  rw [hempty] at hcontains
  cases hcontains

private theorem isEmpty_next_maybeImport (input : Dir) {w : Work} (h : w.next.isEmpty = false) :
    (maybeImport input w).next.isEmpty = false := by
  unfold maybeImport
  split
  · exact h
  · exact isEmpty_foldl_importFile h

private theorem exists_mem_toList {dir : Dir} (h : dir.isEmpty = false) : ∃ f, f ∈ dir.toList := by
  rw [← Std.ExtTreeMap.isEmpty_toList] at h
  exact List.exists_mem_of_ne_nil _ fun hnil ↦ by rw [hnil] at h; cases h

/-- Once the output directory holds a file the script never finishes. -/
theorem mainLoop_of_busy {w : Work} (h : Busy w) (turns : ℕ) :
    mainLoop sha256sum target input turns w = none := by
  induction turns generalizing w with
  | zero => rfl
  | succ turns ih =>
    have hcur := isEmpty_next_maybeImport input h.next
    rw [mainLoop, generation_nonempty sha256sum target hcur]
    obtain ⟨f, hf⟩ := exists_mem_toList hcur
    refine ih (busy_foldl_runOn hf (.inl ?_))
    rw [maybeImport_eq]
    exact h.symccOut

private theorem not_finishes_of_output {f : String} {c : Content} (hf : input[f]? = some c)
    (hc : target c ≠ []) (out : Option Dir) (turns : ℕ) :
    mainLoop sha256sum target input turns (.create out) = none := by
  cases turns with
  | zero => rfl
  | succ turns =>
    have hstart := next_maybeImport_create input out
    have hmem : (f, c) ∈ input.toList := Std.ExtTreeMap.mem_toList_iff_getElem?_eq_some.mpr hf
    have hempty : input.isEmpty = false := by
      rw [← Std.ExtTreeMap.isEmpty_toList]
      exact List.isEmpty_eq_false_iff.mpr (List.ne_nil_of_mem hmem)
    have hfirst := generation_nonempty sha256sum target (hstart.symm ▸ hempty)
    rw [hstart] at hfirst
    rw [mainLoop, hfirst]
    exact mainLoop_of_busy (busy_foldl_runOn hmem (.inr hc)) turns

/-- The script finishes, and has then run the target once on each content, exactly if no initial
input makes the target write a file. -/
theorem finishesOnce_iff (hname : NamedByHash sha256sum input) (out : Option Dir) :
    FinishesOnce sha256sum target input out ↔ Quiet target input := by
  refine ⟨fun ⟨turns, w, hw, _⟩ f c hf ↦ ?_, finishesOnce_of_quiet hname out⟩
  by_contra hc
  rw [not_finishes_of_output hf hc] at hw
  cases hw

/-- The SHA-256 digests of two files. -/
def digest (c : Content) : String :=
  if c = [97] then "ca978112ca1bbdcafac231b39a23dc4da786eff8147c4e72b9807785afee48bb"
  else "3e23e8160039594a33894f6564e1b1348bbd7a0088d42c4acb73eeaed59c009d"

/-- An input directory with the file `a`. -/
def oneInput : Dir := (∅ : Dir).insert (digest [97]) [97]

/-- On `a` the target writes the file `b`, on everything else it writes nothing. -/
def flipOnce (c : Content) : List (String × Content) :=
  if c = [97] then [("000000", [98])] else []

private theorem oneInput_eq {f : String} {c : Content} (h : oneInput[f]? = some c) :
    f = digest [97] ∧ c = [97] := by
  rw [oneInput, Std.ExtTreeMap.getElem?_insert] at h
  split at h
  · next heq => exact ⟨(Std.LawfulEqOrd.eq_of_compare heq).symm, (Option.some.inj h).symm⟩
  · rw [Std.ExtTreeMap.getElem?_empty] at h
    cases h

private theorem oneInput_getElem? : oneInput[digest [97]]? = some [97] :=
  Std.ExtTreeMap.getElem?_insert_self

private theorem namedByHash_oneInput : NamedByHash digest oneInput := fun f c h ↦ by
  obtain ⟨rfl, rfl⟩ := oneInput_eq h
  rfl

private theorem generated_flipOnce {c : Content} (h : Generated oneInput flipOnce c) :
    c = [97] ∨ c = [98] := by
  induction h with
  | input h => exact .inl (oneInput_eq h).2
  | output _ h ih =>
    rcases ih with rfl | rfl
    · exact .inr (Prod.mk.inj (List.mem_singleton.mp h)).2
    · exact absurd h List.not_mem_nil

/-- One input and one generated file, and the script does not finish. -/
theorem not_finishesOnce :
    NamedByHash digest oneInput ∧ {c | Generated oneInput flipOnce c}.Finite ∧
      ¬FinishesOnce digest flipOnce oneInput none := by
  refine ⟨namedByHash_oneInput, ?_, ?_⟩
  · exact ((Set.finite_singleton [98]).insert [97]).subset fun c h ↦ generated_flipOnce h
  · rintro ⟨turns, w, hw, -⟩
    rw [not_finishes_of_output oneInput_getElem? (by decide)] at hw
    cases hw

/-- An input directory with the files `a` and `b`. -/
def twoInputs : Dir := oneInput.insert (digest [98]) [98]

private theorem namedByHash_twoInputs : NamedByHash digest twoInputs := fun f c h ↦ by
  rw [twoInputs, Std.ExtTreeMap.getElem?_insert] at h
  split at h
  · next heq => rw [← Std.LawfulEqOrd.eq_of_compare heq, ← Option.some.inj h]
  · exact namedByHash_oneInput f c h

/-- On a target that writes nothing the script finishes after one generation. -/
theorem finishesOnce_iff_twoInputs :
    twoInputs.size = 2 ∧
      (FinishesOnce digest (fun _ ↦ []) twoInputs (some oneInput) ↔
        Quiet (fun _ ↦ []) twoInputs) :=
  ⟨by decide, finishesOnce_iff namedByHash_twoInputs (some oneInput)⟩

end PureConcolicExecution

end Adacc
