import Mathlib.Algebra.Order.Ring.Nat
import Mathlib.Data.List.Lex
import Mathlib.Data.Nat.Bitwise
import Mathlib.Tactic.Ring

/-! Byte strings and their lexicographic order, the little-endian integers that the file formats
are built from, and the error type of the library. -/

namespace MulanLsm

/-- A byte string, a `Vec<u8>` or a `&[u8]` of the source. -/
abbrev Bytes := List UInt8

instance linearOrderUInt8 : LinearOrder UInt8 where
  le_refl a := UInt8.le_refl a
  le_trans _ _ _ := UInt8.le_trans
  le_antisymm _ _ := UInt8.le_antisymm
  le_total := UInt8.le_total
  lt_iff_le_not_ge a b := by
    rw [UInt8.not_le]
    exact ⟨fun h => ⟨UInt8.le_of_lt h, h⟩, fun h => h.2⟩
  toDecidableLE := inferInstance
  toDecidableEq := inferInstance
  toDecidableLT := inferInstance

/-- The error type of the library. -/
inductive MulanError
  | notFound
  | invalidArgument (msg : String)
  | corrupted (msg : String)
  | io
  | notSupported (msg : String)
  deriving DecidableEq, Repr

/-- A result of the library: a value or an error. -/
abbrev Result (α : Type) := Except MulanError α

/-- A `usize`, of 64 bits, that holds `x`; arithmetic wraps around. -/
def asUsize (x : Nat) : Nat := x % 2 ^ 64

/-- `x as u32`. -/
def asU32 (x : Nat) : Nat := x % 2 ^ 32

/-- `x as u16`. -/
def asU16 (x : Nat) : Nat := x % 2 ^ 16

theorem asUsize_lt (x : Nat) : asUsize x < 2 ^ 64 := Nat.mod_lt _ (by decide)

theorem asU32_of_lt {x : Nat} (h : x < 2 ^ 32) : asU32 x = x := Nat.mod_eq_of_lt h

theorem asU16_of_lt {x : Nat} (h : x < 2 ^ 16) : asU16 x = x := Nat.mod_eq_of_lt h

theorem asU32_lt (x : Nat) : asU32 x < 2 ^ 32 := Nat.mod_lt _ (by decide)

/-- The `n` low bytes of `x`, the least significant first (`to_le_bytes`). -/
def toLeBytes : Nat → Nat → Bytes
  | 0, _ => []
  | n + 1, x => UInt8.ofNat (x % 256) :: toLeBytes n (x / 256)

/-- The number that bytes stand for, the least significant first (`from_le_bytes`). -/
def fromLeBytes : Bytes → Nat
  | [] => 0
  | b :: bs => b.toNat + 256 * fromLeBytes bs

@[simp] theorem toLeBytes_length (n x : Nat) : (toLeBytes n x).length = n := by
  induction n generalizing x with
  | zero => rfl
  | succ n ih => simp [toLeBytes, ih]

theorem fromLeBytes_toLeBytes (n x : Nat) : fromLeBytes (toLeBytes n x) = x % 256 ^ n := by
  induction n generalizing x with
  | zero => simp [toLeBytes, fromLeBytes, Nat.mod_one]
  | succ n ih =>
    have hb : (UInt8.ofNat (x % 256)).toNat = x % 256 := by
      rw [UInt8.toNat_ofNat']; omega
    rw [toLeBytes, fromLeBytes, ih, hb, pow_succ, mul_comm (256 ^ n), Nat.mod_mul]

theorem fromLeBytes_toLeBytes_of_lt {n x : Nat} (h : x < 256 ^ n) :
    fromLeBytes (toLeBytes n x) = x := by
  rw [fromLeBytes_toLeBytes, Nat.mod_eq_of_lt h]

theorem toLeBytes_fromLeBytes (bs : Bytes) : toLeBytes bs.length (fromLeBytes bs) = bs := by
  induction bs with
  | nil => rfl
  | cons b bs ih =>
    have hLow : (b.toNat + 256 * fromLeBytes bs) % 256 = b.toNat := by
      have := b.toNat_lt
      omega
    have hHigh : (b.toNat + 256 * fromLeBytes bs) / 256 = fromLeBytes bs := by
      have := b.toNat_lt
      omega
    rw [List.length_cons, toLeBytes, fromLeBytes, hLow, hHigh, ih, UInt8.ofNat_toNat]

theorem fromLeBytes_lt (bs : Bytes) : fromLeBytes bs < 256 ^ bs.length := by
  induction bs with
  | nil => simp [fromLeBytes]
  | cons b bs ih =>
    have := b.toNat_lt
    rw [fromLeBytes, List.length_cons, pow_succ]
    omega

theorem List.mapM_append_singleton {α β : Type} {g : α → Result β} {xs : List α} {ys : List β}
    {x : α} {y : β} (h : xs.mapM g = .ok ys) (hx : g x = .ok y) :
    (xs ++ [x]).mapM g = .ok (ys ++ [y]) := by
  rw [List.mapM_append, h]
  simp [hx]
  rfl

theorem eq_ok_of_toOption {ε α : Type} {r : Except ε α} {a : α} (h : r.toOption = some a) :
    r = .ok a := by
  cases r with
  | error e => cases h
  | ok b => exact congrArg Except.ok (Option.some.inj h)

end MulanLsm
