import Mathlib.Data.List.DropRight
import Mathlib.Data.List.Basic

/-!
# Words and lines

A list is cut at its separators into words, and empty words are dropped. What is cut has forgotten
how many separators there were, so white space at the ends does not matter, and words that are
joined by single separators come back exactly if none of them is empty or contains a separator
(`splitWords_intercalate_iff`).

Lines are ended by one character, and a line can have a second one before it, as in files from other
systems.
-/

namespace Words

variable {α : Type*} {p : α → Bool}

/-! ## Words -/

/-- The words between separators. -/
def splitWords (p : α → Bool) (text : List α) : List (List α) :=
  (text.splitOnP p).filter fun word ↦ !word.isEmpty

/-- A text that is a word of its own. -/
def IsWord (p : α → Bool) (word : List α) : Prop := word ≠ [] ∧ ∀ c ∈ word, p c = false

instance (word : List α) : Decidable (IsWord p word) :=
  @instDecidableAnd _ _ inferInstance (List.decidableBAll _ word)

theorem splitWords_nil : splitWords p [] = [] := rfl

/-- Words do not go past a separator. -/
theorem splitWords_append_cons {c : α} (hc : p c = true) (text rest : List α) :
    splitWords p (text ++ c :: rest) = splitWords p text ++ splitWords p rest := by
  rw [splitWords, List.splitOnP_append_cons _ _ hc, List.filter_append, splitWords, splitWords]

theorem splitWords_of_isWord {word : List α} (h : IsWord p word) : splitWords p word = [word] := by
  have hne : (!word.isEmpty) = true := by simpa using h.1
  rw [splitWords, List.splitOnP_eq_singleton h.2, List.filter_singleton, hne, cond_true]

/-- Nothing but words is left. -/
theorem isWord_of_mem_splitWords {text word : List α} (h : word ∈ splitWords p text) :
    IsWord p word := by
  induction text generalizing word with
  | nil => exact absurd h List.not_mem_nil
  | cons c text ih =>
    obtain ⟨hmem, hne⟩ := List.mem_filter.mp h
    refine ⟨by simpa using hne, ?_⟩
    obtain ⟨first, rest, hsplit⟩ := List.exists_cons_of_ne_nil (List.splitOnP_ne_nil p text)
    have htail : ∀ w ∈ first :: rest, ∀ d ∈ w, p d = false := by
      intro w hw d hd
      have hnonempty : (!w.isEmpty) = true := by simpa using List.ne_nil_of_mem hd
      exact (ih (List.mem_filter.mpr ⟨hsplit ▸ hw, hnonempty⟩)).2 d hd
    rw [List.splitOnP_cons_eq_if_modifyHead, hsplit] at hmem
    split at hmem
    · obtain rfl | hmem := List.mem_cons.mp hmem
      · exact List.forall_mem_nil _
      · exact htail word hmem
    · next hc =>
      obtain rfl | hmem := List.mem_cons.mp hmem
      · exact List.forall_mem_cons.mpr ⟨Bool.eq_false_iff.mpr hc,
          htail first List.mem_cons_self⟩
      · exact htail word (List.mem_cons_of_mem _ hmem)

/-- Separators at the beginning do not matter. -/
theorem splitWords_dropWhile (text : List α) :
    splitWords p (text.dropWhile p) = splitWords p text := by
  induction text with
  | nil => rfl
  | cons c text ih =>
    cases hc : p c with
    | false => rw [List.dropWhile_cons_of_neg (by simp [hc])]
    | true =>
      rw [List.dropWhile_cons_of_pos hc, ih]
      exact (splitWords_append_cons hc [] text).symm

/-- Separators at the end do not matter. -/
theorem splitWords_rdropWhile (text : List α) :
    splitWords p (text.rdropWhile p) = splitWords p text := by
  induction text using List.reverseRecOn with
  | nil => rfl
  | append_singleton text c ih =>
    cases hc : p c with
    | false => rw [List.rdropWhile_concat_neg _ _ _ (by simp [hc])]
    | true =>
      rw [List.rdropWhile_concat_pos _ _ _ hc, ih, splitWords_append_cons hc, splitWords_nil,
        List.append_nil]

private theorem splitWords_intercalate {c : α} (hc : p c = true) {words : List (List α)}
    (h : ∀ word ∈ words, IsWord p word) : splitWords p ([c].intercalate words) = words := by
  induction words with
  | nil => rfl
  | cons word words ih =>
    obtain ⟨hword, hwords⟩ := List.forall_mem_cons.mp h
    cases words with
    | nil => rw [List.intercalate_singleton, splitWords_of_isWord hword]
    | cons word' words =>
      rw [List.intercalate_cons_cons, List.append_assoc, List.singleton_append,
        splitWords_append_cons hc, splitWords_of_isWord hword, ih hwords, List.singleton_append]

/-- Words that are joined by separators come back, and nothing else does. -/
theorem splitWords_intercalate_iff {c : α} (hc : p c = true) {words : List (List α)} :
    splitWords p ([c].intercalate words) = words ↔ ∀ word ∈ words, IsWord p word :=
  ⟨fun h _ hword ↦ isWord_of_mem_splitWords (h ▸ hword), splitWords_intercalate hc⟩

/-- What joined words are made of. -/
theorem mem_intercalate {c d : α} {words : List (List α)} (h : d ∈ [c].intercalate words) :
    d = c ∨ ∃ word ∈ words, d ∈ word := by
  induction words with
  | nil => exact absurd h List.not_mem_nil
  | cons word words ih =>
    cases words with
    | nil => exact .inr ⟨word, List.mem_cons_self, by rwa [List.intercalate_singleton] at h⟩
    | cons word' words =>
      rw [List.intercalate_cons_cons, List.append_assoc, List.mem_append, List.mem_append,
        List.mem_singleton] at h
      obtain h | rfl | h := h
      · exact .inr ⟨word, List.mem_cons_self, h⟩
      · exact .inl rfl
      · exact (ih h).imp_right fun ⟨w, hw, hd⟩ ↦ ⟨w, List.mem_cons_of_mem _ hw, hd⟩

/-! ## Lines -/

variable [DecidableEq α]

/-- A line without the character `cr` at its end. -/
def stripEnd (cr : α) (line : List α) : List α :=
  if line.getLast? = some cr then line.dropLast else line

/-- The lines of a text, which end with `nl` or with `cr` and `nl`, and a last line without an end
if it is not empty. -/
def lines (nl cr : α) (text : List α) : List (List α) :=
  let pieces := text.splitOn nl
  pieces.dropLast.map (stripEnd cr) ++ pieces.getLast?.toList.filter fun line ↦ !line.isEmpty

theorem stripEnd_prefix (cr : α) (line : List α) : stripEnd cr line <+: line := by
  unfold stripEnd
  split
  · exact List.dropLast_prefix line
  · exact List.prefix_rfl

/-- The first line. -/
theorem lines_append_cons {nl cr : α} {line : List α} (h : nl ∉ line) (rest : List α) :
    lines nl cr (line ++ nl :: rest) = stripEnd cr line :: lines nl cr rest := by
  obtain ⟨first, more, hsplit⟩ := List.exists_cons_of_ne_nil (List.splitOn_ne_nil nl rest)
  unfold lines
  rw [List.splitOn_append_cons_self_of_not_mem h, hsplit]
  rfl

end Words
