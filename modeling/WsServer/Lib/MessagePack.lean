import Mathlib.Algebra.Group.Int.Defs
import Mathlib.Algebra.Group.Nat.Defs
import Mathlib.Data.List.Basic

/-! MessagePack without `bin` and `ext`. A `Msg` is a message as it is written: every number, string,
    array and map says in which of the forms of the format it stands. `encode` writes it, `WellFormed`
    says that each value fits its form, so the encodings of well-formed messages are exactly the byte
    strings of the format. -/

namespace Lib

/-! ### Big-endian numbers -/

/-- A number below `256 ^ k` in `k` bytes, the most significant one first. -/
def bigEndian : ℕ → ℕ → List UInt8
  | 0, _ => []
  | k + 1, n => UInt8.ofNat (n / 256 ^ k) :: bigEndian k (n % 256 ^ k)

/-- The number that bytes stand for. -/
def fromBytes : List UInt8 → ℕ
  | [] => 0
  | b :: bs => b.toNat * 256 ^ bs.length + fromBytes bs

@[simp] theorem length_bigEndian : ∀ k n : ℕ, (bigEndian k n).length = k
  | 0, _ => rfl
  | k + 1, n => by rw [bigEndian, List.length_cons, length_bigEndian]

theorem fromBytes_lt : ∀ bs : List UInt8, fromBytes bs < 256 ^ bs.length
  | [] => by simp [fromBytes]
  | b :: bs => by
    have hb : b.toNat < 256 := b.toNat_lt
    have hrest := fromBytes_lt bs
    have hmul : (b.toNat + 1) * 256 ^ bs.length ≤ 256 * 256 ^ bs.length :=
      Nat.mul_le_mul_right _ hb
    rw [fromBytes, List.length_cons, Nat.pow_succ, Nat.mul_comm _ 256]
    rw [Nat.add_mul, Nat.one_mul] at hmul
    omega

theorem fromBytes_append : ∀ xs ys : List UInt8,
    fromBytes (xs ++ ys) = fromBytes xs * 256 ^ ys.length + fromBytes ys
  | [], ys => by simp [fromBytes]
  | b :: xs, ys => by
    rw [List.cons_append, fromBytes, fromBytes, fromBytes_append xs ys, List.length_append, Nat.pow_add,
      Nat.add_mul, Nat.mul_assoc, Nat.add_assoc]

theorem fromBytes_bigEndian : ∀ {k n : ℕ}, n < 256 ^ k → fromBytes (bigEndian k n) = n
  | 0, n, h => by simp at h; simp [bigEndian, fromBytes, h]
  | k + 1, n, h => by
    have hpos : 0 < 256 ^ k := Nat.pow_pos (by decide)
    have hdiv : n / 256 ^ k < 256 := by
      rw [Nat.div_lt_iff_lt_mul hpos]
      rwa [Nat.pow_succ, Nat.mul_comm] at h
    rw [bigEndian, fromBytes, length_bigEndian, fromBytes_bigEndian (Nat.mod_lt n hpos),
      UInt8.toNat_ofNat', Nat.mod_eq_of_lt hdiv, Nat.mul_comm]
    exact Nat.div_add_mod n _

theorem bigEndian_fromBytes : ∀ bs : List UInt8, bigEndian bs.length (fromBytes bs) = bs
  | [] => rfl
  | b :: bs => by
    have hlt := fromBytes_lt bs
    rw [List.length_cons, bigEndian, fromBytes, Nat.mul_comm, Nat.mul_add_div (by omega),
      Nat.div_eq_of_lt hlt, Nat.mul_add_mod, Nat.mod_eq_of_lt hlt, bigEndian_fromBytes bs]
    simp

/-! ### Messages -/

inductive Width where | w8 | w16 | w32 | w64
  deriving DecidableEq

def Width.bytes : Width → ℕ
  | .w8 => 1
  | .w16 => 2
  | .w32 => 4
  | .w64 => 8

/-- Behind the base marker. -/
def Width.index : Width → ℕ
  | .w8 => 0
  | .w16 => 1
  | .w32 => 2
  | .w64 => 3

/-- How an integer is written. -/
inductive IntForm where
  | positive | negative
  | unsigned (w : Width)
  | signed (w : Width)
  deriving DecidableEq

/-- How the length of a string is written. -/
inductive StrForm where | fix | w8 | w16 | w32
  deriving DecidableEq

/-- How the length of an array or a map is written. -/
inductive SeqForm where | fix | w16 | w32
  deriving DecidableEq

/-- A message as it is written. -/
inductive Msg where
  | nil
  | bool (b : Bool)
  | int (form : IntForm) (n : ℤ)
  | float32 (payload : List UInt8)
  | float64 (payload : List UInt8)
  | str (form : StrForm) (bytes : List UInt8)
  | array (form : SeqForm) (items : List Msg)
  | map (form : SeqForm) (entries : List (Msg × Msg))

/-- The numbers that a form can hold. -/
def IntForm.Holds : IntForm → ℤ → Prop
  | .positive, n => 0 ≤ n ∧ n < 128
  | .negative, n => -32 ≤ n ∧ n < 0
  | .unsigned w, n => 0 ≤ n ∧ n < 256 ^ w.bytes
  | .signed w, n => -(128 * 256 ^ (w.bytes - 1)) ≤ n ∧ n < 128 * 256 ^ (w.bytes - 1)

def IntForm.encode : IntForm → ℤ → List UInt8
  | .positive, n => [UInt8.ofNat n.toNat]
  | .negative, n => [UInt8.ofNat (n + 256).toNat]
  | .unsigned w, n => UInt8.ofNat (0xcc + w.index) :: bigEndian w.bytes n.toNat
  | .signed w, n => UInt8.ofNat (0xd0 + w.index) :: bigEndian w.bytes (n % 256 ^ w.bytes).toNat

/-- The lengths below this one. -/
def StrForm.bound : StrForm → ℕ
  | .fix => 32
  | .w8 => 2 ^ 8
  | .w16 => 2 ^ 16
  | .w32 => 2 ^ 32

def StrForm.header : StrForm → ℕ → List UInt8
  | .fix, n => [UInt8.ofNat (0xa0 + n)]
  | .w8, n => 0xd9 :: bigEndian 1 n
  | .w16, n => 0xda :: bigEndian 2 n
  | .w32, n => 0xdb :: bigEndian 4 n

def SeqForm.bound : SeqForm → ℕ
  | .fix => 16
  | .w16 => 2 ^ 16
  | .w32 => 2 ^ 32

def SeqForm.arrayHeader : SeqForm → ℕ → List UInt8
  | .fix, n => [UInt8.ofNat (0x90 + n)]
  | .w16, n => 0xdc :: bigEndian 2 n
  | .w32, n => 0xdd :: bigEndian 4 n

def SeqForm.mapHeader : SeqForm → ℕ → List UInt8
  | .fix, n => [UInt8.ofNat (0x80 + n)]
  | .w16, n => 0xde :: bigEndian 2 n
  | .w32, n => 0xdf :: bigEndian 4 n

namespace Msg

mutual

def encode : Msg → List UInt8
  | .nil => [0xc0]
  | .bool b => [if b then 0xc3 else 0xc2]
  | .int form n => form.encode n
  | .float32 payload => 0xca :: payload
  | .float64 payload => 0xcb :: payload
  | .str form bytes => form.header bytes.length ++ bytes
  | .array form items => form.arrayHeader items.length ++ encodeAll items
  | .map form entries => form.mapHeader entries.length ++ encodeEntries entries

def encodeAll : List Msg → List UInt8
  | [] => []
  | x :: xs => x.encode ++ encodeAll xs

def encodeEntries : List (Msg × Msg) → List UInt8
  | [] => []
  | (k, v) :: rest => k.encode ++ (v.encode ++ encodeEntries rest)

end

mutual

/-- Every value fits the form it is written in. -/
def WellFormed : Msg → Prop
  | .nil | .bool _ => True
  | .int form n => form.Holds n
  | .float32 payload => payload.length = 4
  | .float64 payload => payload.length = 8
  | .str form bytes => bytes.length < form.bound
  | .array form items => items.length < form.bound ∧ AllWellFormed items
  | .map form entries => entries.length < form.bound ∧ EntriesWellFormed entries

def AllWellFormed : List Msg → Prop
  | [] => True
  | x :: xs => x.WellFormed ∧ AllWellFormed xs

def EntriesWellFormed : List (Msg × Msg) → Prop
  | [] => True
  | (k, v) :: rest => k.WellFormed ∧ v.WellFormed ∧ EntriesWellFormed rest

end

mutual

/-- How deep the message nests. -/
def depth : Msg → ℕ
  | .array _ items => depthAll items + 1
  | .map _ entries => depthEntries entries + 1
  | _ => 1

def depthAll : List Msg → ℕ
  | [] => 0
  | x :: xs => max x.depth (depthAll xs)

def depthEntries : List (Msg × Msg) → ℕ
  | [] => 0
  | (k, v) :: rest => max k.depth (max v.depth (depthEntries rest))

end

end Msg

/-! ### Integers and their bytes -/

/-- The signed number whose two's complement in `k` bytes is `n`. -/
def twosComplement (k n : ℕ) : ℤ := if 128 * 256 ^ (k - 1) ≤ n then (n : ℤ) - 256 ^ k else n

theorem unsigned_bytes {w : Width} {xs : List UInt8} (h : xs.length = w.bytes) :
    (IntForm.unsigned w).Holds (fromBytes xs) ∧ bigEndian w.bytes (fromBytes xs : ℤ).toNat = xs := by
  have hlt := fromBytes_lt xs
  rw [h] at hlt
  refine ⟨?_, by rw [Int.toNat_natCast, ← h, bigEndian_fromBytes]⟩
  cases w <;> simp only [IntForm.Holds, Width.bytes] at hlt ⊢ <;> omega

theorem fromBytes_unsigned {w : Width} {n : ℤ} (h : (IntForm.unsigned w).Holds n) :
    (fromBytes (bigEndian w.bytes n.toNat) : ℤ) = n := by
  obtain ⟨hlo, hhi⟩ := h
  rw [fromBytes_bigEndian, Int.toNat_of_nonneg hlo]
  cases w <;> simp only [Width.bytes] at hhi ⊢ <;> omega

theorem fromBytes_signed {w : Width} {n : ℤ} (h : (IntForm.signed w).Holds n) :
    twosComplement w.bytes (fromBytes (bigEndian w.bytes (n % 256 ^ w.bytes).toNat)) = n := by
  obtain ⟨hlo, hhi⟩ := h
  rw [fromBytes_bigEndian (by cases w <;> simp only [Width.bytes] <;> omega)]
  cases w <;> simp only [twosComplement, Width.bytes] at hlo hhi ⊢ <;> split_ifs <;> omega

theorem signed_bytes {w : Width} {xs : List UInt8} (h : xs.length = w.bytes) :
    (IntForm.signed w).Holds (twosComplement w.bytes (fromBytes xs)) ∧
      bigEndian w.bytes (twosComplement w.bytes (fromBytes xs) % 256 ^ w.bytes).toNat = xs := by
  have hlt := fromBytes_lt xs
  rw [h] at hlt
  have hmod : (twosComplement w.bytes (fromBytes xs) % 256 ^ w.bytes).toNat = fromBytes xs := by
    cases w <;> simp only [twosComplement, Width.bytes] at hlt ⊢ <;> split_ifs <;> omega
  refine ⟨?_, by rw [hmod, ← h, bigEndian_fromBytes]⟩
  cases w <;> simp only [IntForm.Holds, twosComplement, Width.bytes] at hlt ⊢ <;> split_ifs <;> omega

/-! ### The smallest forms -/

/-- The smallest form of a number, as an encoder chooses it. -/
def IntForm.smallest (n : ℤ) : IntForm :=
  if 0 ≤ n then
    if n < 128 then .positive
    else if n < 2 ^ 8 then .unsigned .w8
    else if n < 2 ^ 16 then .unsigned .w16
    else if n < 2 ^ 32 then .unsigned .w32
    else .unsigned .w64
  else if -32 ≤ n then .negative
  else if -(2 ^ 7) ≤ n then .signed .w8
  else if -(2 ^ 15) ≤ n then .signed .w16
  else if -(2 ^ 31) ≤ n then .signed .w32
  else .signed .w64

def StrForm.smallest (n : ℕ) : StrForm :=
  if n < 32 then .fix else if n < 2 ^ 8 then .w8 else if n < 2 ^ 16 then .w16 else .w32

def SeqForm.smallest (n : ℕ) : SeqForm := if n < 16 then .fix else if n < 2 ^ 16 then .w16 else .w32

theorem IntForm.smallest_holds {n : ℤ} (hlo : -(2 ^ 63) ≤ n) (hhi : n < 2 ^ 64) :
    (IntForm.smallest n).Holds n := by
  unfold IntForm.smallest
  split_ifs <;> simp only [IntForm.Holds, Width.bytes] <;> omega

theorem StrForm.smallest_fits {n : ℕ} (h : n < 2 ^ 32) : n < (StrForm.smallest n).bound := by
  unfold StrForm.smallest
  split_ifs <;> simp only [StrForm.bound] <;> omega

theorem SeqForm.smallest_fits {n : ℕ} (h : n < 2 ^ 32) : n < (SeqForm.smallest n).bound := by
  unfold SeqForm.smallest
  split_ifs <;> simp only [SeqForm.bound] <;> omega

end Lib
