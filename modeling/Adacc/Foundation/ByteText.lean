import Mathlib.Data.List.Infix
import Mathlib.Data.UInt
import Mathlib.Tactic.NormNum

/-!
# Bytes as text

Names and the output of programs are bytes, and are read as UTF-8 where text is needed. They are
cut into pieces: a character each, or else bytes that begin like a character but do not go on like
one, as many as there are, or a byte with which no character begins. The lossy way puts U+FFFD for a
broken piece; the strict way rejects the bytes if there is one.

What is searched for in such a text is often ASCII. Then the text might as well be the bytes: an
ASCII character stands for itself and for nothing else, in particular no byte of a longer character
or of a broken piece is ASCII. `Decodes` says this of a text and its bytes, `isSuffix_decodeLossy`
and `isInfix_decodeLossy` are what a search sees of it.
-/

namespace ByteText

/-! ## Decoding -/

/-- U+FFFD -/
def replacement : Char := Char.ofNat 0xFFFD

/-- What the first byte of a longer character says about it: the bits it gives, the number of bytes
that follow, and the least and the greatest that the next one can be. -/
def lead (b : ℕ) : Option (ℕ × ℕ × ℕ × ℕ) :=
  if b < 0xC2 then none
  else if b < 0xE0 then some (b - 0xC0, 1, 0x80, 0xBF)
  else if b = 0xE0 then some (0, 2, 0xA0, 0xBF)
  else if b = 0xED then some (0xD, 2, 0x80, 0x9F)
  else if b < 0xF0 then some (b - 0xE0, 2, 0x80, 0xBF)
  else if b = 0xF0 then some (0, 3, 0x90, 0xBF)
  else if b < 0xF4 then some (b - 0xF0, 3, 0x80, 0xBF)
  else if b = 0xF4 then some (4, 3, 0x80, 0x8F)
  else none

/-- The rest of a character, of which `owed` bytes are missing, and the number of bytes it takes. -/
def follow (value : ℕ) : ℕ → ℕ → ℕ → List UInt8 → Option Char × ℕ
  | 0, _, _, _ => (some (Char.ofNat value), 0)
  | _ + 1, _, _, [] => (none, 0)
  | owed + 1, low, high, b :: bs =>
    if low ≤ b.toNat ∧ b.toNat ≤ high then
      let (c, used) := follow (value * 64 + b.toNat % 64) owed 0x80 0xBF bs
      (c, used + 1)
    else (none, 0)

/-- The piece at the start of a text, a character or not, and how many bytes belong to it after the
first one. -/
def first (b : UInt8) (bs : List UInt8) : Option Char × ℕ :=
  if b.toNat < 0x80 then (some (Char.ofNat b.toNat), 0)
  else
    match lead b.toNat with
    | none => (none, 0)
    | some (value, owed, low, high) => follow value owed low high bs

/-- The pieces after `skip` bytes. -/
def piecesFrom : ℕ → List UInt8 → List (Option Char)
  | _, [] => []
  | skip + 1, _ :: bs => piecesFrom skip bs
  | 0, b :: bs =>
    let (c, used) := first b bs
    c :: piecesFrom used bs

def pieces (bytes : List UInt8) : List (Option Char) := piecesFrom 0 bytes

/-- Bytes as a text, with U+FFFD for broken pieces. -/
def decodeLossy (bytes : List UInt8) : List Char := (pieces bytes).map fun c ↦ c.getD replacement

/-- Bytes as a text, unless there are broken pieces. -/
def decodeStrict (bytes : List UInt8) : Option (List Char) := (pieces bytes).mapM id

/-- A character, a broken piece of three bytes, and a byte with which nothing begins. -/
example : decodeLossy [0x61, 0xC3, 0xA4, 0xF0, 0x9F, 0x98, 0x2B, 0xFF]
    = ['a', 'ä', replacement, '+', replacement] := by
  decide

theorem piecesFrom_eq_drop (skip : ℕ) (bytes : List UInt8) :
    piecesFrom skip bytes = pieces (bytes.drop skip) := by
  induction bytes generalizing skip with
  | nil => cases skip <;> rfl
  | cons b bytes ih =>
    cases skip with
    | zero => rfl
    | succ skip => exact ih skip

/-- A text is its first piece and the text after it. -/
theorem decodeLossy_cons (b : UInt8) (bytes : List UInt8) :
    decodeLossy (b :: bytes) = (first b bytes).1.getD replacement ::
      decodeLossy (bytes.drop (first b bytes).2) := by
  rw [decodeLossy, decodeLossy, ← piecesFrom_eq_drop]
  rfl

/-! ## Characters and their bytes -/

theorem toNat_ofNat {n : ℕ} (h : n.isValidChar) : (Char.ofNat n).toNat = n := by
  rw [Char.ofNat, dif_pos h]
  rfl

theorem le_toNat_replacement : 128 ≤ replacement.toNat := by decide

def isAscii (text : List Char) : Bool := text.all fun c ↦ c.toNat < 128

/-- The bytes of an ASCII text. -/
def ascii (text : List Char) : List UInt8 := text.map fun c ↦ UInt8.ofNat c.toNat

/-- Completed by `owed` groups of six bits, the number is a character outside ASCII. -/
def Beyond (value owed : ℕ) : Prop :=
  128 ≤ value * 64 ^ owed ∧ ((value + 1) * 64 ^ owed ≤ 0xD800 ∨
    0xE000 ≤ value * 64 ^ owed ∧ (value + 1) * 64 ^ owed ≤ 0x110000)

theorem Beyond.le_toNat {value : ℕ} (h : Beyond value 0) : 128 ≤ (Char.ofNat value).toNat := by
  simp only [Beyond, pow_zero, mul_one] at h
  rw [toNat_ofNat (by unfold Nat.isValidChar; omega)]
  exact h.1

/-- One group is there. -/
theorem Beyond.step {value owed t : ℕ} (h : Beyond value (owed + 1)) (ht : t < 64) :
    Beyond (value * 64 + t) owed := by
  have hlow : value * 64 ^ (owed + 1) ≤ (value * 64 + t) * 64 ^ owed := by
    rw [pow_succ', ← mul_assoc]
    exact Nat.mul_le_mul_right _ (Nat.le_add_right _ _)
  have hhigh : (value * 64 + t + 1) * 64 ^ owed ≤ (value + 1) * 64 ^ (owed + 1) := by
    rw [pow_succ', ← mul_assoc]
    exact Nat.mul_le_mul_right _ (by omega)
  exact ⟨h.1.trans hlow, h.2.imp hhigh.trans fun h ↦ ⟨h.1.trans hlow, hhigh.trans h.2⟩⟩

/-- The bytes that belong to a longer character, or to a piece of one, are outside ASCII, and so is
what stands for them. -/
theorem follow_spec {value owed low high : ℕ} {bs : List UInt8} (h : Beyond value owed)
    (hlow : 128 ≤ low) :
    128 ≤ ((follow value owed low high bs).1.getD replacement).toNat ∧
      ∀ b ∈ bs.take (follow value owed low high bs).2, 128 ≤ b.toNat := by
  induction owed generalizing value low high bs with
  | zero => exact ⟨h.le_toNat, List.forall_mem_nil _⟩
  | succ owed ih =>
    cases bs with
    | nil => exact ⟨le_toNat_replacement, List.forall_mem_nil _⟩
    | cons b bs =>
      rw [follow]
      split
      · next hb =>
        obtain ⟨hchar, hbytes⟩ := ih (h.step (Nat.mod_lt b.toNat (by norm_num))) le_rfl
        exact ⟨hchar, List.forall_mem_cons.mpr ⟨hlow.trans hb.1, hbytes⟩⟩
      · exact ⟨le_toNat_replacement, List.forall_mem_nil _⟩

/-- The ranges of the byte after the first one leave out what is too long or too large. -/
theorem lead_spec {b value owed low high : ℕ} (h : lead b = some (value, owed, low, high)) :
    128 ≤ low ∧ ∃ owed', owed = owed' + 1 ∧
      ∀ t, low ≤ t → t ≤ high → Beyond (value * 64 + t % 64) owed' := by
  unfold lead at h
  split_ifs at h <;>
    simp only [Option.some.injEq, Prod.mk.injEq] at h <;>
    obtain ⟨rfl, rfl, rfl, rfl⟩ := h <;>
    refine ⟨by norm_num, _, rfl, fun t hlow hhigh ↦ ?_⟩ <;>
    norm_num [Beyond] <;>
    omega

/-- A character at the start of the bytes: an ASCII byte, or at least one byte outside ASCII. -/
theorem first_spec (b : UInt8) (bs : List UInt8) :
    (b.toNat < 128 ∧ first b bs = (some (Char.ofNat b.toNat), 0)) ∨
      (128 ≤ b.toNat ∧ 128 ≤ ((first b bs).1.getD replacement).toNat ∧
        ∀ b' ∈ bs.take (first b bs).2, 128 ≤ b'.toNat) := by
  unfold first
  split
  · next hb => exact .inl ⟨hb, rfl⟩
  · next hb =>
    refine .inr ⟨not_lt.mp hb, ?_⟩
    cases hlead : lead b.toNat with
    | none => exact ⟨le_toNat_replacement, List.forall_mem_nil _⟩
    | some p =>
      obtain ⟨value, owed, low, high⟩ := p
      obtain ⟨hlow, owed', rfl, hnext⟩ := lead_spec hlead
      cases bs with
      | nil => exact ⟨le_toNat_replacement, List.forall_mem_nil _⟩
      | cons c bs =>
        simp only [follow]
        split
        · next hc =>
          obtain ⟨hchar, hbytes⟩ := follow_spec (hnext c.toNat hc.1 hc.2) (le_refl 128)
          exact ⟨hchar, List.forall_mem_cons.mpr ⟨hlow.trans hc.1, hbytes⟩⟩
        · exact ⟨le_toNat_replacement, List.forall_mem_nil _⟩

/-- A text and bytes that it stands for: ASCII characters for themselves, any others for at least
one byte outside ASCII. -/
inductive Decodes : List UInt8 → List Char → Prop
  | nil : Decodes [] []
  | single {c : Char} (hc : c.toNat < 128) {bytes : List UInt8} {text : List Char}
      (h : Decodes bytes text) : Decodes (UInt8.ofNat c.toNat :: bytes) (c :: text)
  | piece {b : UInt8} {block : List UInt8} (hblock : ∀ b' ∈ b :: block, 128 ≤ b'.toNat) {c : Char}
      (hc : 128 ≤ c.toNat) {bytes : List UInt8} {text : List Char} (h : Decodes bytes text) :
      Decodes (b :: block ++ bytes) (c :: text)

theorem decodes_decodeLossy (bytes : List UInt8) : Decodes bytes (decodeLossy bytes) := by
  induction hn : bytes.length using Nat.strong_induction_on generalizing bytes with
  | _ n ih =>
    cases bytes with
    | nil => exact .nil
    | cons b bytes =>
      have hrest := ih _ (by rw [← hn, List.length_drop, List.length_cons]; omega)
        (bytes.drop (first b bytes).2) rfl
      rw [decodeLossy_cons]
      obtain ⟨hb, hfirst⟩ | ⟨hb, hchar, hbytes⟩ := first_spec b bytes
      · rw [hfirst] at hrest ⊢
        have hc : (Char.ofNat b.toNat).toNat = b.toNat := toNat_ofNat (.inl (by omega))
        have hsingle := Decodes.single (hc ▸ hb) hrest
        rwa [hc, UInt8.ofNat_toNat] at hsingle
      · have hpiece := Decodes.piece (List.forall_mem_cons.mpr ⟨hb, hbytes⟩) hchar hrest
        rwa [List.cons_append, List.take_append_drop] at hpiece

/-! ## Searching for an ASCII text -/

section Search

variable {p : List Char}

theorem ascii_cons (c : Char) (p : List Char) :
    ascii (c :: p) = UInt8.ofNat c.toNat :: ascii p := rfl

theorem toNat_ofNat_toNat {c : Char} (hc : c.toNat < 128) :
    (UInt8.ofNat c.toNat).toNat = c.toNat := by
  rw [UInt8.toNat_ofNat', Nat.mod_eq_of_lt (hc.trans (by norm_num))]

/-- Different ASCII characters are different bytes. -/
theorem ofNat_toNat_eq_iff {c d : Char} (hc : c.toNat < 128) (hd : d.toNat < 128) :
    UInt8.ofNat c.toNat = UInt8.ofNat d.toNat ↔ c = d := by
  rw [← UInt8.toNat_inj, toNat_ofNat_toNat hc, toNat_ofNat_toNat hd, Char.toNat_inj]

/-- An ASCII text does not start with a byte outside ASCII. -/
theorem ascii_ne_cons (hp : ∀ c ∈ p, c.toNat < 128) {b : UInt8} (hb : 128 ≤ b.toNat)
    (bytes : List UInt8) : ascii p ≠ b :: bytes := by
  cases p with
  | nil => exact (List.cons_ne_nil _ _).symm
  | cons c p =>
    have hc := (List.forall_mem_cons.mp hp).1
    rintro heq
    rw [← (List.cons.inj heq).1, toNat_ofNat_toNat hc] at hb
    omega

namespace Decodes

variable {bytes : List UInt8} {text : List Char}

theorem ascii_eq_iff (h : Decodes bytes text) (hp : ∀ c ∈ p, c.toNat < 128) :
    ascii p = bytes ↔ p = text := by
  induction h generalizing p with
  | nil => exact List.map_eq_nil_iff
  | single hc h ih =>
    cases p with
    | nil => exact iff_of_false (List.cons_ne_nil _ _).symm (List.cons_ne_nil _ _).symm
    | cons d p =>
      obtain ⟨hd, hp⟩ := List.forall_mem_cons.mp hp
      rw [ascii_cons, List.cons.injEq, List.cons.injEq, ofNat_toNat_eq_iff hd hc, ih hp]
  | piece hblock hc h ih =>
    refine iff_of_false (ascii_ne_cons hp (hblock _ List.mem_cons_self) _) ?_
    rintro rfl
    exact absurd (hp _ List.mem_cons_self) (not_lt.mpr hc)

theorem ascii_isPrefix_iff (h : Decodes bytes text) (hp : ∀ c ∈ p, c.toNat < 128) :
    ascii p <+: bytes ↔ p <+: text := by
  induction h generalizing p with
  | nil => rw [List.prefix_nil, List.prefix_nil, ascii, List.map_eq_nil_iff]
  | single hc h ih =>
    cases p with
    | nil => exact iff_of_true List.nil_prefix List.nil_prefix
    | cons d p =>
      obtain ⟨hd, hp⟩ := List.forall_mem_cons.mp hp
      rw [ascii_cons, List.cons_prefix_cons, List.cons_prefix_cons, ofNat_toNat_eq_iff hd hc, ih hp]
  | piece hblock hc h ih =>
    cases p with
    | nil => exact iff_of_true List.nil_prefix List.nil_prefix
    | cons d p =>
      have hd := (List.forall_mem_cons.mp hp).1
      rw [ascii_cons, List.cons_append, List.cons_prefix_cons, List.cons_prefix_cons]
      refine iff_of_false (fun hpre ↦ ?_) fun hpre ↦ ?_
      · have hb := hblock _ List.mem_cons_self
        rw [← hpre.1, toNat_ofNat_toNat hd] at hb
        omega
      · exact absurd (hpre.1 ▸ hd) (not_lt.mpr hc)

/-- A piece outside ASCII is not in an ASCII text, so a suffix begins after it. -/
theorem ascii_isSuffix_append_iff (hp : ∀ c ∈ p, c.toNat < 128) {block : List UInt8}
    (hblock : ∀ b ∈ block, 128 ≤ b.toNat) (bytes : List UInt8) :
    ascii p <:+ block ++ bytes ↔ ascii p <:+ bytes := by
  induction block with
  | nil => rfl
  | cons b block ih =>
    obtain ⟨hb, hblock⟩ := List.forall_mem_cons.mp hblock
    rw [List.cons_append, List.suffix_cons_iff, ih hblock, or_iff_right (ascii_ne_cons hp hb _)]

theorem ascii_isSuffix_iff (h : Decodes bytes text) (hp : ∀ c ∈ p, c.toNat < 128) :
    ascii p <:+ bytes ↔ p <:+ text := by
  induction h with
  | nil => rw [List.suffix_nil, List.suffix_nil, ascii, List.map_eq_nil_iff]
  | single hc h ih =>
    rw [List.suffix_cons_iff, List.suffix_cons_iff, (Decodes.single hc h).ascii_eq_iff hp, ih]
  | @piece b block hblock c hc bytes text h ih =>
    have hne : p ≠ c :: text := by
      rintro rfl
      exact absurd (hp _ List.mem_cons_self) (not_lt.mpr hc)
    rw [ascii_isSuffix_append_iff hp hblock, ih, List.suffix_cons_iff, or_iff_right hne]

/-- The same for a text in the middle. -/
theorem ascii_isInfix_append_iff (hp : ∀ c ∈ p, c.toNat < 128) {block : List UInt8}
    (hblock : ∀ b ∈ block, 128 ≤ b.toNat) (bytes : List UInt8) :
    ascii p <:+: block ++ bytes ↔ ascii p <:+: bytes := by
  induction block with
  | nil => rfl
  | cons b block ih =>
    obtain ⟨hb, hblock⟩ := List.forall_mem_cons.mp hblock
    rw [List.cons_append, List.infix_cons_iff, ih hblock]
    refine or_iff_right_of_imp fun hpre ↦ ?_
    cases p with
    | nil => exact List.nil_infix
    | cons d p =>
      have hd := (List.forall_mem_cons.mp hp).1
      rw [ascii_cons, List.cons_prefix_cons] at hpre
      rw [← hpre.1, toNat_ofNat_toNat hd] at hb
      omega

theorem ascii_isInfix_iff (h : Decodes bytes text) (hp : ∀ c ∈ p, c.toNat < 128) :
    ascii p <:+: bytes ↔ p <:+: text := by
  induction h with
  | nil => rw [List.infix_nil, List.infix_nil, ascii, List.map_eq_nil_iff]
  | single hc h ih =>
    rw [List.infix_cons_iff, List.infix_cons_iff, (Decodes.single hc h).ascii_isPrefix_iff hp, ih]
  | @piece b block hblock c hc bytes text h ih =>
    rw [ascii_isInfix_append_iff hp hblock, ih, List.infix_cons_iff]
    refine (or_iff_right_of_imp fun hpre ↦ ?_).symm
    cases p with
    | nil => exact List.nil_infix
    | cons d p =>
      have hd := (List.forall_mem_cons.mp hp).1
      rw [List.cons_prefix_cons] at hpre
      exact absurd (hpre.1 ▸ hd) (not_lt.mpr hc)

end Decodes

theorem toNat_lt_of_isAscii (hp : isAscii p) : ∀ c ∈ p, c.toNat < 128 := fun c hc ↦
  of_decide_eq_true (List.all_eq_true.mp hp c hc)

/-- An ASCII text is at the end of a decoded text exactly if it is at the end of the bytes. -/
theorem isSuffix_decodeLossy (hp : isAscii p) (bytes : List UInt8) :
    p <:+ decodeLossy bytes ↔ ascii p <:+ bytes :=
  ((decodes_decodeLossy bytes).ascii_isSuffix_iff (toNat_lt_of_isAscii hp)).symm

/-- An ASCII text is in a decoded text exactly if it is in the bytes. -/
theorem isInfix_decodeLossy (hp : isAscii p) (bytes : List UInt8) :
    p <:+: decodeLossy bytes ↔ ascii p <:+: bytes :=
  ((decodes_decodeLossy bytes).ascii_isInfix_iff (toNat_lt_of_isAscii hp)).symm

end Search

end ByteText
