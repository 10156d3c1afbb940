import Adacc.Foundation.SmtValue

/-!
# Terms of the theory of bit vectors

The term language over the operations of `SmtValue`, with variables that stand for bytes. A term
is interpreted in an environment for its variables. Interpretation is total: an operation on
operands of the wrong sorts yields `false`, so a term has a sort in every case, and the sort does
not depend on the environment (`Term.sort_eval`).

The functions on values come first, each with the fact that the sort of its result is a function
of the sorts of its operands, which is all that `sort_eval` needs.
-/

namespace SmtLib

namespace Value

/-! ## Operations on values -/

def binary (op : BvOp) : Value → Value → Value
  | .bv w x, .bv w' y => if h : w' = w then .bv w (op.denote x (y.cast h)) else .bool false
  | _, _ => .bool false

def compare (op : CmpOp) : Value → Value → Value
  | .bv w x, .bv w' y => if h : w' = w then .bool (op.denote x (y.cast h)) else .bool false
  | .bool x, .bool y =>
    match op with
    | .eq => .bool (x == y)
    | .distinct => .bool (x != y)
    | _ => .bool false
  | _, _ => .bool false

def connective (op : BoolOp) : Value → Value → Value
  | .bool x, .bool y => .bool (op.denote x y)
  | _, _ => .bool false

def not : Value → Value
  | .bool x => .bool !x
  | .bv _ _ => .bool false

def signExt (i : ℕ) : Value → Value
  | .bv w x => .bv (w + i) (x.signExtend (w + i))
  | .bool _ => .bool false

def zeroExt (i : ℕ) : Value → Value
  | .bv w x => .bv (w + i) (x.setWidth (w + i))
  | .bool _ => .bool false

def extract (high low : ℕ) : Value → Value
  | .bv _ x => .bv (high - low + 1) (x.extractLsb high low)
  | .bool _ => .bool false

def concat : Value → Value → Value
  | .bv m x, .bv n y => .bv (m + n) (x ++ y)
  | _, _ => .bool false

/-- `if c then a else b`, of the sort of `a`. -/
def ite : Value → Value → Value → Value
  | .bool true, a, _ => a
  | .bool false, a, b => if a.sort = b.sort then b else a
  | .bv _ _, _, _ => .bool false

variable {a a' b b' c c' : Value}

private theorem sort_congr (h : a.sort = a'.sort) :
    (∃ x x', a = .bool x ∧ a' = .bool x') ∨ ∃ w x x', a = .bv w x ∧ a' = .bv w x' := by
  cases a with
  | bool x =>
    cases a' with
    | bool x' => exact .inl ⟨x, x', rfl, rfl⟩
    | bv w x' => simp at h
  | bv w x =>
    obtain ⟨x', rfl⟩ := exists_bv_of_sort h.symm
    exact .inr ⟨w, x, x', rfl, rfl⟩

theorem sort_binary (op : BvOp) (ha : a.sort = a'.sort) (hb : b.sort = b'.sort) :
    (binary op a b).sort = (binary op a' b').sort := by
  obtain ⟨x, x', rfl, rfl⟩ | ⟨w, x, x', rfl, rfl⟩ := sort_congr ha <;>
    obtain ⟨y, y', rfl, rfl⟩ | ⟨v, y, y', rfl, rfl⟩ := sort_congr hb <;> try rfl
  rw [binary, binary]
  by_cases h : v = w
  · rw [dif_pos h, dif_pos h, sort_bv, sort_bv]
  · rw [dif_neg h, dif_neg h]

theorem sort_compare (op : CmpOp) (a b : Value) : (compare op a b).sort = .bool := by
  unfold compare
  split
  · split <;> rfl
  · split <;> rfl
  · rfl

theorem sort_connective (op : BoolOp) (a b : Value) : (connective op a b).sort = .bool := by
  unfold connective
  split <;> rfl

theorem sort_not (a : Value) : a.not.sort = .bool := by
  cases a <;> rfl

theorem sort_signExt (i : ℕ) (ha : a.sort = a'.sort) :
    (signExt i a).sort = (signExt i a').sort := by
  obtain ⟨x, x', rfl, rfl⟩ | ⟨w, x, x', rfl, rfl⟩ := sort_congr ha <;> rfl

theorem sort_zeroExt (i : ℕ) (ha : a.sort = a'.sort) :
    (zeroExt i a).sort = (zeroExt i a').sort := by
  obtain ⟨x, x', rfl, rfl⟩ | ⟨w, x, x', rfl, rfl⟩ := sort_congr ha <;> rfl

theorem sort_extract (high low : ℕ) (ha : a.sort = a'.sort) :
    (extract high low a).sort = (extract high low a').sort := by
  obtain ⟨x, x', rfl, rfl⟩ | ⟨w, x, x', rfl, rfl⟩ := sort_congr ha <;> rfl

theorem sort_concat (ha : a.sort = a'.sort) (hb : b.sort = b'.sort) :
    (concat a b).sort = (concat a' b').sort := by
  obtain ⟨x, x', rfl, rfl⟩ | ⟨w, x, x', rfl, rfl⟩ := sort_congr ha <;>
    obtain ⟨y, y', rfl, rfl⟩ | ⟨v, y, y', rfl, rfl⟩ := sort_congr hb <;> rfl

theorem sort_ite (b b' : Value) (hc : c.sort = c'.sort) (ha : a.sort = a'.sort) :
    (ite c a b).sort = (ite c' a' b').sort := by
  have hbool : ∀ (x : Bool) (a b : Value), (ite (.bool x) a b).sort = a.sort := by
    intro x a b
    cases x
    · rw [ite]
      split
      · next h => exact h.symm
      · rfl
    · rfl
  obtain ⟨x, x', rfl, rfl⟩ | ⟨w, x, x', rfl, rfl⟩ := sort_congr hc
  · rw [hbool, hbool, ha]
  · rfl

end Value

/-! ## Terms -/

/-- Terms with the byte variables `0, 1, …`. -/
inductive Term
  | bool (b : Bool)
  | numeral (w : ℕ) (x : BitVec w)
  | var (i : ℕ)
  | binary (op : BvOp) (a b : Term)
  | compare (op : CmpOp) (a b : Term)
  | connective (op : BoolOp) (a b : Term)
  | not (a : Term)
  | signExt (i : ℕ) (a : Term)
  | zeroExt (i : ℕ) (a : Term)
  | extract (high low : ℕ) (a : Term)
  | concat (a b : Term)
  | ite (c a b : Term)
  deriving DecidableEq

namespace Term

/-- The value of a term in an environment for its variables. -/
def eval (env : ℕ → BitVec 8) : Term → Value
  | .bool b => .bool b
  | .numeral w x => .bv w x
  | .var i => .bv 8 (env i)
  | .binary op a b => .binary op (a.eval env) (b.eval env)
  | .compare op a b => .compare op (a.eval env) (b.eval env)
  | .connective op a b => .connective op (a.eval env) (b.eval env)
  | .not a => (a.eval env).not
  | .signExt i a => .signExt i (a.eval env)
  | .zeroExt i a => .zeroExt i (a.eval env)
  | .extract high low a => .extract high low (a.eval env)
  | .concat a b => .concat (a.eval env) (b.eval env)
  | .ite c a b => .ite (c.eval env) (a.eval env) (b.eval env)

/-- The sort of a term: the sort of its value in some environment, hence in every one. -/
def sort (t : Term) : Srt := (t.eval fun _ ↦ 0).sort

theorem sort_eval (env : ℕ → BitVec 8) (t : Term) : (t.eval env).sort = t.sort := by
  unfold sort
  induction t with
  | bool | numeral | var => rfl
  | binary op a b iha ihb => exact Value.sort_binary op iha ihb
  | compare op a b => exact (Value.sort_compare op _ _).trans (Value.sort_compare op _ _).symm
  | connective op a b =>
    exact (Value.sort_connective op _ _).trans (Value.sort_connective op _ _).symm
  | not a => exact (Value.sort_not _).trans (Value.sort_not _).symm
  | signExt i a ih => exact Value.sort_signExt i ih
  | zeroExt i a ih => exact Value.sort_zeroExt i ih
  | extract high low a ih => exact Value.sort_extract high low ih
  | concat a b iha ihb => exact Value.sort_concat iha ihb
  | ite c a b ihc iha => exact Value.sort_ite _ _ ihc iha

end Term

end SmtLib
