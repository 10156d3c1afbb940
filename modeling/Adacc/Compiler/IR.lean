import Adacc.Runtime.MemoryValues

/-!
# The fragment of LLVM IR

Functions over integers, with memory, as the compiler pass sees them: one list of instructions in
layout order. A basic block is named by the position of its first instruction, and an instruction
that has a value *is* that value, so the value is named by the position too; that every value has
one definition needs no extra condition.

Integers of width 1 are Booleans and the others bit vectors. A step is `none` where the language
leaves the behaviour undefined (division by zero, overshift, operands of a wrong type) or where the
instruction is outside the fragment; `ret` ends the run. Flags such as `nsw` only make more steps
undefined and are left out. Memory has the byte order of the data layout.

PHI nodes are evaluated together on entry to their block, from the values before the jump.
-/

namespace Adacc.IR

open SmtLib ModularRange ByteOrder

/-! ## Syntax -/

/-- A value that an instruction can refer to: a formal argument or an earlier result. -/
inductive ValueId
  | arg (argNo : ℕ)
  | inst (position : ℕ)
  deriving DecidableEq

inductive Operand
  | const (v : Value)
  | value (id : ValueId)
  deriving DecidableEq

/-- A basic block, by the position of its first instruction. -/
abbrev Label := ℕ

/-- `Instruction::Add`, …, `Instruction::Xor` -/
inductive BinaryOpcode
  | add | sub | mul | uDiv | sDiv | uRem | sRem
  | shl | lShr | aShr
  | and | or | xor
  deriving DecidableEq

/-- `CmpInst::ICMP_EQ`, …, `CmpInst::ICMP_SLE` -/
inductive Predicate
  | eq | ne
  | ugt | uge | ult | ule
  | sgt | sge | slt | sle
  deriving DecidableEq

inductive CastOpcode
  | zExt | sExt | trunc
  deriving DecidableEq

/-- What computes a value from its operands alone, with the widths of the types involved. -/
inductive Operation
  | binary (op : BinaryOpcode) (width : ℕ)
  | icmp (pred : Predicate) (width : ℕ)
  | cast (op : CastOpcode) (src dest : ℕ)
  deriving DecidableEq

/-- The types that are loaded and stored. -/
inductive IntTy
  | i8 | i16 | i32 | i64
  deriving DecidableEq

/-- `DataLayout::getTypeStoreSize` -/
def IntTy.storeSize : IntTy → SizeT
  | .i8 => 1
  | .i16 => 2
  | .i32 => 4
  | .i64 => 8

theorem IntTy.storeSize_pos (ty : IntTy) : 0 < ty.storeSize.toNat := by
  rcases ty <;> decide

theorem IntTy.storeSize_le (ty : IntTy) : ty.storeSize.toNat ≤ 8 := by
  rcases ty <;> decide

inductive Instr
  | operation (op : Operation) (operands : List Operand)
  | load (ty : IntTy) (addr : Operand)
  | store (ty : IntTy) (value addr : Operand)
  | phi (incoming : List (Label × Operand))
  | br (target : Label)
  | condBr (cond : Operand) (ifTrue ifFalse : Label)
  | switch (cond : Operand) (default : Label) (cases : List (Value × Label))
  | ret

/-- A function: for each formal whether it has users, and the instructions in layout order. -/
structure Function where
  isMain : Bool
  args : List Bool
  littleEndian : Bool
  code : List Instr

/-! ## Operations on values -/

/-- The value as an integer of width `w`. -/
def bits (w : ℕ) : Value → Option (BitVec w)
  | .bv w' x => if h : w' = w then some (x.cast h) else none
  | .bool _ => none

@[simp] theorem bits_eq_some_iff {w : ℕ} {v : Value} {x : BitVec w} :
    bits w v = some x ↔ v = .bv w x := by
  rcases v with b | ⟨w', y⟩
  · simp [bits]
  · by_cases h : w' = w
    · subst h
      simp [bits]
    · simp [bits, h]

@[simp] theorem bits_bv {w : ℕ} (x : BitVec w) : bits w (.bv w x) = some x :=
  bits_eq_some_iff.mpr rfl

/-- `none` is undefined behaviour or poison. -/
def BinaryOpcode.eval {w : ℕ} (op : BinaryOpcode) (x y : BitVec w) : Option (BitVec w) :=
  match op with
  | .add => some (x + y)
  | .sub => some (x - y)
  | .mul => some (x * y)
  | .uDiv => if y = 0 then none else some (x / y)
  | .sDiv => if y = 0 ∨ x = BitVec.intMin w ∧ y = -1 then none else some (x.sdiv y)
  | .uRem => if y = 0 then none else some (x % y)
  | .sRem => if y = 0 ∨ x = BitVec.intMin w ∧ y = -1 then none else some (x.srem y)
  | .shl => if y.toNat < w then some (x <<< y.toNat) else none
  | .lShr => if y.toNat < w then some (x >>> y.toNat) else none
  | .aShr => if y.toNat < w then some (x.sshiftRight y.toNat) else none
  | .and => some (x &&& y)
  | .or => some (x ||| y)
  | .xor => some (x ^^^ y)

/-- On `i1`, the fragment has the logical operators. -/
def BinaryOpcode.evalBool (op : BinaryOpcode) (x y : Bool) : Option Bool :=
  match op with
  | .and => some (x && y)
  | .or => some (x || y)
  | .xor => some (x ^^ y)
  | _ => none

def Predicate.eval {w : ℕ} (pred : Predicate) (x y : BitVec w) : Bool :=
  match pred with
  | .eq => x == y
  | .ne => x != y
  | .ugt => y.toNat < x.toNat
  | .uge => y.toNat ≤ x.toNat
  | .ult => x.toNat < y.toNat
  | .ule => x.toNat ≤ y.toNat
  | .sgt => y.toInt < x.toInt
  | .sge => y.toInt ≤ x.toInt
  | .slt => x.toInt < y.toInt
  | .sle => x.toInt ≤ y.toInt

/-- The fragment has casts between widths greater than 1 and the zero extension of an `i1`. -/
def CastOpcode.eval (op : CastOpcode) (src dest : ℕ) : Value → Option Value
  | .bool b =>
    if op = .zExt ∧ src = 1 ∧ 1 < dest then some (.bv dest (BitVec.ofNat dest b.toNat)) else none
  | .bv w x =>
    if w = src ∧ 1 < src ∧ 1 < dest then
      match op with
      | .zExt => if src < dest then some (.bv dest (x.setWidth dest)) else none
      | .sExt => if src < dest then some (.bv dest (x.signExtend dest)) else none
      | .trunc => if dest < src then some (.bv dest (x.setWidth dest)) else none
    else none

def Operation.eval : Operation → List Value → Option Value
  | .binary op w, [a, b] =>
    match a, b with
    | .bool x, .bool y => if w = 1 then (op.evalBool x y).map .bool else none
    | a, b =>
      if 1 < w then (bits w a).bind fun x ↦ (bits w b).bind fun y ↦ (op.eval x y).map (.bv w)
      else none
  | .icmp pred w, [a, b] =>
    if 1 < w then (bits w a).bind fun x ↦ (bits w b).map fun y ↦ .bool (pred.eval x y) else none
  | .cast op src dest, [a] => op.eval src dest a
  | _, _ => none

/-- The two ways in which a binary operator is defined. -/
theorem Operation.eval_binary {op : BinaryOpcode} {w : ℕ} {a b v : Value}
    (h : (Operation.binary op w).eval [a, b] = some v) :
    (∃ x y z, w = 1 ∧ a = .bool x ∧ b = .bool y ∧ op.evalBool x y = some z ∧ v = .bool z) ∨
      ∃ x y z, 1 < w ∧ a = .bv w x ∧ b = .bv w y ∧ op.eval x y = some z ∧ v = .bv w z := by
  have hbits : (if 1 < w then (bits w a).bind fun x ↦ (bits w b).bind fun y ↦
      (op.eval x y).map (.bv w) else none) = some v →
      ∃ x y z, 1 < w ∧ a = .bv w x ∧ b = .bv w y ∧ op.eval x y = some z ∧ v = .bv w z := by
    rw [Option.ite_none_right_eq_some, Option.bind_eq_some_iff]
    rintro ⟨hw, x, hx, h⟩
    obtain ⟨y, hy, h⟩ := Option.bind_eq_some_iff.mp h
    obtain ⟨z, hz, rfl⟩ := Option.map_eq_some_iff.mp h
    exact ⟨x, y, z, hw, bits_eq_some_iff.mp hx, bits_eq_some_iff.mp hy, hz, rfl⟩
  rcases a with x | ⟨w₁, x⟩ <;> rcases b with y | ⟨w₂, y⟩
  · rw [Operation.eval, Option.ite_none_right_eq_some] at h
    obtain ⟨hw, h⟩ := h
    obtain ⟨z, hz, rfl⟩ := Option.map_eq_some_iff.mp h
    exact .inl ⟨x, y, z, hw, rfl, rfl, hz, rfl⟩
  all_goals exact .inr (hbits h)

/-! ## Execution -/

abbrev Env := ValueId → Option Value

def Operand.eval (env : Env) : Operand → Option Value
  | .const v => some v
  | .value id => env id

structure State where
  env : Env
  mem : UIntPtr → BitVec 8
  /-- The block that is being executed. -/
  block : Label
  pc : ℕ

/-- What a run does that can be seen from outside: blocks entered and memory accessed. -/
inductive Access
  | block (label : Label)
  | load (addr : UIntPtr)
  | store (addr : UIntPtr)
  deriving DecidableEq

/-- The instruction at `s.pc` has been executed and has the value `v`. -/
def State.define (s : State) (v : Value) : State :=
  { s with env := Function.update s.env (.inst s.pc) (some v), pc := s.pc + 1 }

/-- The PHI nodes from position `pos` on, evaluated in `env` for a jump from block `pred`: the
environment that they change `env'` into, and the position after them. -/
def enterPhis (env : Env) (pred : Label) : ℕ → List Instr → Env → Option (Env × ℕ)
  | pos, .phi incoming :: code, env' =>
    ((incoming.lookup pred).bind (·.eval env)).bind fun v ↦
      enterPhis env pred (pos + 1) code (Function.update env' (.inst pos) (some v))
  | pos, _, env' => some (env', pos)

theorem enterPhis_of_head (env : Env) (pred : Label) (pos : ℕ) {code : List Instr} (env' : Env)
    (h : ∀ incoming, code.head? ≠ some (.phi incoming)) :
    enterPhis env pred pos code env' = some (env', pos) := by
  rcases code with - | ⟨I, code⟩
  · rfl
  rcases I with - | - | - | incoming | - | - | - | -
  case phi => exact absurd rfl (h incoming)
  all_goals rfl

def jump (F : Function) (s : State) (target : Label) : Option (State × List Access) :=
  (enterPhis s.env s.block target (F.code.drop target) s.env).map fun entered ↦
    ({ s with env := entered.1, block := target, pc := entered.2 }, [.block target])

/-- Where a `switch` on `v` goes. -/
def switchTarget (default : Label) (cases : List (Value × Label)) (v : Value) : Label :=
  ((cases.find? (·.1 = v)).map Prod.snd).getD default

def Instr.exec (F : Function) (s : State) : Instr → Option (State × List Access)
  | .operation op operands =>
    ((operands.mapM (Operand.eval s.env)).bind op.eval).map fun v ↦ (s.define v, [])
  | .load ty addr =>
    ((addr.eval s.env).bind (bits 64)).map fun a ↦
      (s.define (.ofNat (8 * ty.storeSize.toNat)
        (encode F.littleEndian (fun i ↦ s.mem (a + BitVec.ofNat 64 i)) ty.storeSize.toNat)),
      [.load a])
  | .store ty value addr =>
    ((addr.eval s.env).bind (bits 64)).bind fun a ↦
      ((value.eval s.env).bind (bits (8 * ty.storeSize.toNat))).map fun x ↦
        ({ s with
            mem := storeValue s.mem a ty.storeSize x.toNat F.littleEndian
            pc := s.pc + 1 },
          [.store a])
  | .phi _ => none
  | .br target => jump F s target
  | .condBr cond ifTrue ifFalse =>
    match cond.eval s.env with
    | some (.bool true) => jump F s ifTrue
    | some (.bool false) => jump F s ifFalse
    | _ => none
  | .switch cond default cases =>
    (cond.eval s.env).bind fun v ↦
      if ∀ c ∈ cases, c.1.sort = v.sort then jump F s (switchTarget default cases v) else none
  | .ret => none

/-- A conditional branch jumps to one of its targets. -/
theorem exec_condBr {F : Function} {s : State} {cond : Operand} {ifTrue ifFalse : Label}
    {t : State × List Access} (h : Instr.exec F s (.condBr cond ifTrue ifFalse) = some t) :
    ∃ b, cond.eval s.env = some (.bool b) ∧ jump F s (if b then ifTrue else ifFalse) = some t := by
  rw [Instr.exec] at h
  split at h
  · next hcond => exact ⟨true, hcond, h⟩
  · next hcond => exact ⟨false, hcond, h⟩
  · cases h

/-- A `switch` jumps to the target of its operand. -/
theorem exec_switch {F : Function} {s : State} {cond : Operand} {default : Label}
    {cases : List (Value × Label)} {t : State × List Access}
    (h : Instr.exec F s (.switch cond default cases) = some t) :
    ∃ v, cond.eval s.env = some v ∧ (∀ c ∈ cases, c.1.sort = v.sort) ∧
      jump F s (switchTarget default cases v) = some t := by
  rw [Instr.exec, Option.bind_eq_some_iff] at h
  obtain ⟨v, hv, h⟩ := h
  rw [Option.ite_none_right_eq_some] at h
  exact ⟨v, hv, h⟩

/-- Values that are equal to the same cases lead to the same target. -/
theorem switchTarget_congr {default : Label} {cases : List (Value × Label)} {v w : Value}
    (h : ∀ c ∈ cases, v = c.1 ↔ w = c.1) :
    switchTarget default cases v = switchTarget default cases w := by
  have hfind : cases.find? (·.1 = v) = cases.find? (·.1 = w) := by
    induction cases with
    | nil => rfl
    | cons c cases ih =>
      rw [List.forall_mem_cons] at h
      have hc : c.1 = v ↔ c.1 = w := by rw [eq_comm, h.1, eq_comm]
      rw [List.find?_cons, List.find?_cons, ih h.2, decide_eq_decide.mpr hc]
  rw [switchTarget, switchTarget, hfind]

/-- One step of the function. -/
def Function.step (F : Function) (s : State) : Option (State × List Access) :=
  (F.code[s.pc]?).bind (Instr.exec F s)

/-- The state on entry to the function. -/
def Function.start (args : ℕ → Option Value) (mem : UIntPtr → BitVec 8) : State where
  env
    | .arg n => args n
    | .inst _ => none
  mem := mem
  block := 0
  pc := 0

end Adacc.IR
