import MulanLsm.InternalKey

/-! The numbers of the files of a database, their names, and what a version knows about a table. -/

namespace MulanLsm

/-- What a version knows about a table file. -/
structure FileMetaData where
  number : Nat
  fileSize : Nat
  smallest : InternalKey
  largest : InternalKey
  allowedSeeks : Nat
  deriving DecidableEq, Repr

def FileMetaData.new (number fileSize : Nat) (smallest largest : InternalKey) : FileMetaData :=
  { number, fileSize, smallest, largest, allowedSeeks := 0 }

/-- Gives out file numbers in ascending order. -/
structure IdGenerator where
  next : Nat
  deriving DecidableEq, Repr

namespace IdGenerator

/-- The next number, and the generator after it. -/
def newFileNumber (g : IdGenerator) : Nat × IdGenerator := (g.next, { next := g.next + 1 })

def bumpTo (g : IdGenerator) (n : Nat) : IdGenerator := if n > g.next then { next := n } else g

end IdGenerator

/-- The ASCII digit of a number below ten. -/
def digit (n : Nat) : UInt8 := UInt8.ofNat (48 + n)

def isAsciiDigit (b : UInt8) : Bool := 48 ≤ b.toNat && b.toNat ≤ 57

/-- The decimal digits of `n` in front of `acc`, at most `fuel` of them. -/
def decimalLoop : Nat → Nat → Bytes → Bytes
  | 0, _, acc => acc
  | fuel + 1, n, acc => if n = 0 then acc else decimalLoop fuel (n / 10) (digit (n % 10) :: acc)

/-- A file number in a file name: in decimal, with zeros in front up to six digits. -/
def toNamePart (number : Nat) : Bytes :=
  let digits := decimalLoop number number []
  List.replicate (6 - digits.length) (digit 0) ++ digits

/-- The number that ASCII digits stand for, after the digits of `acc`. -/
def digitsValue (acc : Nat) (ds : Bytes) : Nat :=
  ds.foldl (fun acc b => acc * 10 + (b.toNat - 48)) acc

/-- A file number from digits that fit a `u64`. -/
def parseNumber (s : Bytes) : Option Nat :=
  if s = [] ∨ ¬s.all isAsciiDigit then none
  else if digitsValue 0 s < 2 ^ 64 then some (digitsValue 0 s)
  else none

/-- `MANIFEST-` -/
def manifestPrefix : Bytes := [0x4D, 0x41, 0x4E, 0x49, 0x46, 0x45, 0x53, 0x54, 0x2D]

def manifestName (number : Nat) : Bytes := manifestPrefix ++ toNamePart number

def parseManifestName (name : Bytes) : Option Nat :=
  if manifestPrefix <+: name then parseNumber (name.drop manifestPrefix.length) else none

theorem digit_toNat {n : Nat} (h : n < 10) : (digit n).toNat = 48 + n := by
  rw [digit, UInt8.toNat_ofNat']
  omega

theorem decimalLoop_digits {fuel n : Nat} {acc : Bytes} (h : ∀ b ∈ acc, isAsciiDigit b) :
    ∀ b ∈ decimalLoop fuel n acc, isAsciiDigit b := by
  induction fuel generalizing n acc with
  | zero => exact h
  | succ fuel ih =>
    rw [decimalLoop]
    split
    · exact h
    · refine ih fun b hb => ?_
      rcases List.mem_cons.mp hb with rfl | hb
      · have := digit_toNat (Nat.mod_lt n (by decide : 0 < 10))
        simp [isAsciiDigit, this]
        omega
      · exact h b hb

/-- Reading the digits of `n` puts `n` in front of what follows. -/
theorem digitsValue_decimalLoop {fuel n : Nat} (hFuel : n ≤ fuel) (acc : Bytes) :
    digitsValue 0 (decimalLoop fuel n acc) = digitsValue n acc := by
  induction fuel generalizing n acc with
  | zero =>
    obtain rfl : n = 0 := by omega
    rfl
  | succ fuel ih =>
    rw [decimalLoop]
    split
    · next h => rw [h]
    · rw [ih (by omega), digitsValue, List.foldl_cons,
        digit_toNat (Nat.mod_lt n (by decide : 0 < 10))]
      have : n / 10 * 10 + (48 + n % 10 - 48) = n := by omega
      rw [this]
      rfl

theorem digitsValue_zeros (k : Nat) (ds : Bytes) :
    digitsValue 0 (List.replicate k (digit 0) ++ ds) = digitsValue 0 ds := by
  induction k with
  | zero => rfl
  | succ k ih => exact ih

theorem toNamePart_ne_nil (n : Nat) : toNamePart n ≠ [] := by
  intro h0
  have := congrArg List.length h0
  simp only [toNamePart, List.length_append, List.length_replicate, List.length_nil] at this
  omega

theorem toNamePart_digits (n : Nat) : ∀ b ∈ toNamePart n, isAsciiDigit b := by
  intro b hb
  rcases List.mem_append.mp hb with hb | hb
  · rw [(List.mem_replicate.mp hb).2]
    decide
  · exact decimalLoop_digits (by simp) b hb

theorem digitsValue_toNamePart (n : Nat) : digitsValue 0 (toNamePart n) = n := by
  rw [toNamePart, digitsValue_zeros, digitsValue_decimalLoop le_rfl]
  rfl

/-- A number is read back from its digits, if it fits. -/
theorem parseNumber_toNamePart (n : Nat) :
    parseNumber (toNamePart n) = if n < 2 ^ 64 then some n else none := by
  have hDigits : (toNamePart n).all isAsciiDigit := List.all_eq_true.mpr (toNamePart_digits n)
  rw [parseNumber, if_neg (by simp [toNamePart_ne_nil, hDigits]), digitsValue_toNamePart]

/-- A file number comes back from its name. -/
@[simp] theorem parseManifestName_manifestName (n : Nat) :
    parseManifestName (manifestName n) = if n < 2 ^ 64 then some n else none := by
  rw [parseManifestName, manifestName, if_pos (List.prefix_append _ _),
    List.drop_left' rfl, parseNumber_toNamePart]

end MulanLsm
