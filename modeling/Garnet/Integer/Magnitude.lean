/-!
# Magnitudes

A natural number of any size as a row of 32-bit limbs, least one first. The number a magnitude stands
for is `Magnitude.toNat`; a magnitude is normal when its last limb is not zero, and then it is the
only normal one for its number.
-/

namespace Garnet

/-- A row of 32-bit limbs, least one first. -/
abbrev Magnitude := List UInt32

namespace Magnitude

def base : Nat := 4294967296

def toNat : Magnitude → Nat
  | [] => 0
  | x :: xs => x.toNat + base * toNat xs

def ofNat (n : Nat) : Magnitude := if n = 0 then [] else UInt32.ofNat n :: ofNat (n / base)
decreasing_by
  have : 1 < base := by decide
  exact Nat.div_lt_self (by omega) this

def IsNormal (m : Magnitude) : Prop := m.getLast? ≠ some 0

def trim : Magnitude → Magnitude
  | [] => []
  | x :: xs =>
    match trim xs with
    | [] => if x = 0 then [] else [x]
    | ys => x :: ys

def cmpLimbs : Magnitude → Magnitude → Ordering
  | x :: xs, y :: ys => (cmpLimbs xs ys).then (compare x.toNat y.toNat)
  | _, _ => .eq

/-- Compare two normal magnitudes: the longer one is greater. -/
def cmp (a b : Magnitude) : Ordering := (compare a.length b.length).then (cmpLimbs a b)

def addCarry : Magnitude → Magnitude → Nat → Magnitude
  | [], [], carry => if carry = 0 then [] else [UInt32.ofNat carry]
  | x :: xs, [], carry =>
    let n := x.toNat + carry
    UInt32.ofNat n :: addCarry xs [] (n / base)
  | [], y :: ys, carry =>
    let n := y.toNat + carry
    UInt32.ofNat n :: addCarry [] ys (n / base)
  | x :: xs, y :: ys, carry =>
    let n := x.toNat + y.toNat + carry
    UInt32.ofNat n :: addCarry xs ys (n / base)

def add (a b : Magnitude) : Magnitude := addCarry a b 0

/-- The difference less a borrow, for a first magnitude that is no smaller than the second with the
borrow. -/
def subBorrow : Magnitude → Magnitude → Nat → Magnitude
  | [], _, _ => []
  | x :: xs, ys, borrow =>
    let n := base + x.toNat - (ys.head?.elim 0 UInt32.toNat) - borrow
    UInt32.ofNat n :: subBorrow xs ys.tail (if n < base then 1 else 0)

/-- The difference, for a first magnitude that is no smaller than the second. -/
def sub (a b : Magnitude) : Magnitude := trim (subBorrow a b 0)

def scaleAdd (factor : Nat) : Magnitude → Nat → Magnitude
  | [], carry => if carry = 0 then [] else [UInt32.ofNat carry]
  | x :: xs, carry =>
    let n := x.toNat * factor + carry
    UInt32.ofNat n :: scaleAdd factor xs (n / base)

/-- The sum of the multiples of `b` by the limbs of `a`, each moved to its place. -/
def mulLimbs : Magnitude → Magnitude → Magnitude
  | [], _ => []
  | x :: xs, b => add (scaleAdd x.toNat b 0) (0 :: mulLimbs xs b)

def mul (a b : Magnitude) : Magnitude := trim (mulLimbs a b)

/-- The quotient and the remainder of a division by a small number. -/
def divMod (d : Nat) : Magnitude → Magnitude × Nat
  | [] => ([], 0)
  | x :: xs =>
    let (q, r) := divMod d xs
    let n := r * base + x.toNat
    (UInt32.ofNat (n / d) :: q, n % d)

theorem divMod_lt {d : Nat} (hd : 0 < d) (m : Magnitude) : (divMod d m).2 < d := by
  cases m with
  | nil => simpa [divMod] using hd
  | cons x xs => simpa [divMod] using Nat.mod_lt _ hd

theorem toNat_divMod {d : Nat} (hd : 0 < d) (m : Magnitude) :
    d * toNat (divMod d m).1 + (divMod d m).2 = toNat m := by
  induction m with
  | nil => simp [divMod, toNat]
  | cons x xs ih =>
    have hr := divMod_lt hd xs
    simp only [divMod, toNat]
    generalize hq : (divMod d xs).1 = q at *
    generalize (divMod d xs).2 = r at *
    have hx : x.toNat < base := x.toNat_lt
    have hn : (r * base + x.toNat) / d < 2 ^ 32 := by
      rw [Nat.div_lt_iff_lt_mul hd]
      have : (r + 1) * base ≤ d * base := Nat.mul_le_mul_right _ hr
      have hb : base = 2 ^ 32 := rfl
      rw [Nat.add_mul] at this
      rw [← hb, Nat.mul_comm base d]
      omega
    have hdm := Nat.div_add_mod (r * base + x.toNat) d
    rw [UInt32.toNat_ofNat_of_lt' hn, ← ih, Nat.mul_add, Nat.mul_add]
    have h1 : d * (base * toNat q) = base * (d * toNat q) := Nat.mul_left_comm _ _ _
    have h2 : base * r = r * base := Nat.mul_comm _ _
    omega

/-- The digits in base `10 ^ 9`, least one first. -/
def chunks (m : Magnitude) : List Nat :=
  if toNat m = 0 then []
  else (divMod 1000000000 m).2 :: chunks (divMod 1000000000 m).1
termination_by toNat m
decreasing_by
  have := toNat_divMod (by decide : 0 < 1000000000) m
  omega

/-- A digit in base `10 ^ 9` as nine decimal digits. -/
def chunkText (n : Nat) : List Char :=
  let digits := Nat.toDigits 10 n
  List.replicate (9 - digits.length) '0' ++ digits

/-- The decimal numeral of a number by its digits in base `10 ^ 9`, least one first. -/
def chunksText (chunks : List Nat) : List Char :=
  match chunks.reverse with
  | [] => ['0']
  | c :: cs => Nat.toDigits 10 c ++ cs.flatMap chunkText

def text (m : Magnitude) : List Char := chunksText (chunks m)

end Magnitude

end Garnet
