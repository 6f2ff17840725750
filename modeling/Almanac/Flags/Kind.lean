import Almanac.Fault

/-!
# Kinds of flags

A kind of flags is a list of named masks. A flag with one bit is *single*; one with several is
*composite*, a name for a union of single flags. Any mask of the width is a value of the kind,
also one with bits that no flag has.

The single flags lie on a circle in the order of their bits. A value whose single flags occupy
consecutive places of the circle is a *run*, which starts at the first of them; a value of all
single flags starts at the lowest.
-/

namespace Almanac

structure Flag where
  name : String
  mask : Nat
deriving DecidableEq, Repr

/-- Named masks of a width in bits, in the order of their declaration. -/
structure FlagKind where
  width : Nat
  flags : List Flag
deriving Repr

def isSingleBit (mask : Nat) : Bool := mask != 0 && mask &&& (mask - 1) == 0

namespace Flag

def isSingle (f : Flag) : Bool := isSingleBit f.mask

end Flag

namespace FlagKind

variable (k : FlagKind)

/-- The single flags in the order of their bits. -/
def singles : List Flag :=
  (k.flags.filter Flag.isSingle).mergeSort (fun a b => a.mask ≤ b.mask)

/-- The composite flags in the order of their declaration. -/
def composites : List Flag := k.flags.filter (!·.isSingle)

/-- The single flag with the bit of an exponent. -/
def single (exponent : Nat) : Except Fault Flag :=
  if 64 ≤ exponent then .error (.exponentRange exponent)
  else
    match k.flags.find? (·.mask == 1 <<< exponent) with
    | some f => .ok f
    | none => .error (.noFlagAt exponent)

def exponent (mask : Nat) : Except Fault Nat :=
  if !isSingleBit mask then .error (.notSingleBit mask)
  else if k.flags.any (·.mask == mask) then .ok mask.log2
  else .error (.undefinedBit mask)

/-- The single flags that a mask contains, in the order of their bits. -/
def decompose (mask : Nat) : List Flag := k.singles.filter (mask &&& ·.mask != 0)

/-- The members follow each other on the circle of the single flags, the first of them after
`turn` steps from the first member. -/
def runFrom? (circle members : List Flag) (turn : Nat) : Option Flag := do
  let turned := members.rotateLeft turn
  let first ← turned.head?
  let place ← circle.findIdx? (·.mask == first.mask)
  let expected := (circle.rotateLeft place).take members.length
  if expected.map Flag.mask = turned.map Flag.mask then some first else none

/-- The flag that a run starts at: none if the single flags of the mask are no run. -/
def runStart? (mask : Nat) : Option Flag :=
  let members := k.decompose mask
  (List.range members.length).findSome? (runFrom? k.singles members)

def isRun (mask : Nat) : Bool := (k.runStart? mask).isSome

end FlagKind

end Almanac
