import SimpleBinary.Float.Format

/-!
# Numbers of 64 and of 32 bits

Both are kept as their words, so that equality of the structure is equality of the bits;
`Binary64.numEq` is the numerical comparison, under which a NaN differs from everything and the
two zeros agree. Every operation is exact arithmetic on naturals.
-/

namespace SimpleBinary

/-- A double precision number, as its word. -/
structure Binary64 where
  bits : UInt64
deriving DecidableEq, Repr

/-- A single precision number, as its word. -/
structure Binary32 where
  bits : UInt32
deriving DecidableEq, Repr

namespace Binary64

def ofWord (w : Nat) : Binary64 := ⟨UInt64.ofNat w⟩

def word (x : Binary64) : Nat := x.bits.toNat

def datum (x : Binary64) : FloatDatum := FloatFormat.double.decode x.word

/-- The word without its sign bit. -/
def magnitude (x : Binary64) : Nat := x.word % FloatFormat.double.signWord

def negative (x : Binary64) : Bool := FloatFormat.double.negative x.word

def isNaN (x : Binary64) : Bool := FloatFormat.double.infinityWord < x.magnitude

def isFinite (x : Binary64) : Bool := x.magnitude < FloatFormat.double.infinityWord

/-- The quiet NaN without sign or payload. -/
def nan : Binary64 := ofWord (FloatFormat.double.quietNaN false 0 0)

def zero : Binary64 := ofWord 0

/-- A number from its sign and magnitude. -/
def ofMagnitude (negative : Bool) (magnitude : Nat) : Binary64 :=
  ofWord (FloatFormat.double.signed negative magnitude)

/-- The double nearest to an integer. -/
def ofInt (n : Int) : Binary64 :=
  ofMagnitude (n < 0) (FloatFormat.double.ofRatio n.natAbs 1)

/-- Numerical equality. -/
def numEq (x y : Binary64) : Bool :=
  !x.isNaN && !y.isNaN && (x.bits == y.bits || (x.magnitude == 0 && y.magnitude == 0))

end Binary64

namespace Binary32

def ofWord (w : Nat) : Binary32 := ⟨UInt32.ofNat w⟩

def word (x : Binary32) : Nat := x.bits.toNat

/-- The double of the same value. -/
def widen (x : Binary32) : Binary64 :=
  Binary64.ofWord (FloatFormat.double.convert FloatFormat.single x.word)

end Binary32

/-- The single nearest to a double. -/
def Binary64.narrow (x : Binary64) : Binary32 :=
  Binary32.ofWord (FloatFormat.single.convert FloatFormat.double x.word)

end SimpleBinary
