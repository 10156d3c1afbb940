import Mathlib.Data.List.Basic

/-!
# Mapping a partial function over a list

Facts about `List.mapM` in `Option`, which fails as soon as the function fails on an element: what
it takes for two such maps to succeed together, and what is known of the elements of a result.
-/

namespace TraverseOption

variable {α β γ : Type*}

theorem mapM_cons_eq_some_iff {f : α → Option β} {a : α} {as : List α} {bs : List β} :
    (a :: as).mapM f = some bs ↔ ∃ b bs', f a = some b ∧ as.mapM f = some bs' ∧ bs = b :: bs' := by
  rw [List.mapM_cons, Option.bind_eq_bind, Option.bind_eq_some_iff]
  constructor
  · rintro ⟨b, hb, h⟩
    obtain ⟨bs', hbs', h⟩ := Option.bind_eq_some_iff.mp h
    exact ⟨b, bs', hb, hbs', (Option.some.inj h).symm⟩
  · rintro ⟨b, bs', hb, hbs', rfl⟩
    exact ⟨b, hb, Option.bind_eq_some_iff.mpr ⟨bs', hbs', rfl⟩⟩

theorem length_of_mapM {f : α → Option β} {as : List α} {bs : List β} (h : as.mapM f = some bs) :
    bs.length = as.length := by
  induction as generalizing bs with
  | nil =>
    rw [List.mapM_nil] at h
    cases h
    rfl
  | cons a as ih =>
    obtain ⟨b, bs', -, hbs', rfl⟩ := mapM_cons_eq_some_iff.mp h
    exact congrArg (· + 1) (ih hbs')

/-- Every element of the result is the image of an element. -/
theorem exists_mem_of_mapM {f : α → Option β} {as : List α} {bs : List β}
    (h : as.mapM f = some bs) {b : β} (hb : b ∈ bs) : ∃ a ∈ as, f a = some b := by
  induction as generalizing bs with
  | nil =>
    rw [List.mapM_nil] at h
    cases h
    cases hb
  | cons a as ih =>
    obtain ⟨b', bs', hb', hbs', rfl⟩ := mapM_cons_eq_some_iff.mp h
    rcases List.mem_cons.mp hb with rfl | hb
    · exact ⟨a, List.mem_cons_self, hb'⟩
    · obtain ⟨a', ha', hfa'⟩ := ih hbs' hb
      exact ⟨a', List.mem_cons_of_mem a ha', hfa'⟩

/-- If the map succeeds, the function is defined on every element. -/
theorem exists_of_mapM {f : α → Option β} {as : List α} {bs : List β} (h : as.mapM f = some bs)
    {a : α} (ha : a ∈ as) : ∃ b ∈ bs, f a = some b := by
  induction as generalizing bs with
  | nil => cases ha
  | cons a' as ih =>
    obtain ⟨b', bs', hb', hbs', rfl⟩ := mapM_cons_eq_some_iff.mp h
    rcases List.mem_cons.mp ha with rfl | ha
    · exact ⟨b', List.mem_cons_self, hb'⟩
    · obtain ⟨b, hb, hfa⟩ := ih hbs' ha
      exact ⟨b, List.mem_cons_of_mem b' hb, hfa⟩

theorem getElem?_of_mapM {f : α → Option β} {as : List α} {bs : List β} (h : as.mapM f = some bs)
    (i : ℕ) : bs[i]? = as[i]?.bind f := by
  induction as generalizing bs i with
  | nil =>
    rw [List.mapM_nil] at h
    cases h
    rfl
  | cons a as ih =>
    obtain ⟨b, bs', hb, hbs', rfl⟩ := mapM_cons_eq_some_iff.mp h
    cases i with
    | zero => exact hb.symm
    | succ i => exact ih hbs' i

/-- Two maps succeed together, and one result is the image of the other. -/
theorem mapM_map_of_forall {f : α → Option β} {g : α → Option γ} (h : β → γ) {as : List α}
    (hall : ∀ a ∈ as, ∃ b, f a = some b ∧ g a = some (h b)) :
    ∃ bs, as.mapM f = some bs ∧ as.mapM g = some (bs.map h) := by
  induction as with
  | nil => exact ⟨[], rfl, rfl⟩
  | cons a as ih =>
    rw [List.forall_mem_cons] at hall
    obtain ⟨⟨b, hf, hg⟩, hrest⟩ := hall
    obtain ⟨bs, hfs, hgs⟩ := ih hrest
    exact ⟨b :: bs, mapM_cons_eq_some_iff.mpr ⟨b, bs, hf, hfs, rfl⟩,
      mapM_cons_eq_some_iff.mpr ⟨h b, bs.map h, hg, hgs, rfl⟩⟩

theorem mapM_congr {f g : α → Option β} {as : List α} (h : ∀ a ∈ as, f a = g a) :
    as.mapM f = as.mapM g := by
  induction as with
  | nil => rfl
  | cons a as ih =>
    rw [List.forall_mem_cons] at h
    rw [List.mapM_cons, List.mapM_cons, h.1, ih h.2]

theorem mapM_replicate {f : α → Option β} {a : α} {b : β} (h : f a = some b) (n : ℕ) :
    (List.replicate n a).mapM f = some (List.replicate n b) := by
  induction n with
  | zero => rfl
  | succ n ih => exact mapM_cons_eq_some_iff.mpr ⟨b, _, h, ih, rfl⟩

end TraverseOption
