import Mathlib.Algebra.Order.Ring.Int
import Mathlib.Data.List.Basic
import Mathlib.Logic.Function.Basic
import Ns2XPass.Library.Machine

/-! # The options of a DCCP packet

`DCCPOptions` is an array of bytes. An option of a small type is one byte, and
any other option is its type, its length and its data. The data of a feature
option are the number of the feature and the value.
-/

namespace Ns2XPass

/-! The results `DCCP_OPT_NO_ERR` and `DCCP_OPT_ERR_*`. -/

def optNoErr : ℤ := 0
def optErrSize : ℤ := -1
def optErrFull : ℤ := -2
def optErrNotFound : ℤ := -3
def optErrType : ℤ := -4
def optErrWalk : ℤ := -5

/-- `DCCP_OPT_SINGLE_BYTE_LIMIT`. -/
def singleByteLimit : UInt8 := 32

/-- `DCCP_OPT_MAX_LENGTH`. -/
def optMaxLength : ℕ := 255

/-- `DCCP_OPT_CHANGEL`. -/
def optChangeL : UInt8 := 33

/-- `DCCP_OPT_CONFIRMR`. -/
def optConfirmR : UInt8 := 36

/-- `DCCP_OPT_ACK_VECTOR_N0` and `DCCP_OPT_ACK_VECTOR_N1`. -/
def optAckVectorN0 : UInt8 := 37
def optAckVectorN1 : UInt8 := 38

/-- The first `n` values of an array. -/
def firstCells {α : Type*} (cells : ℕ → α) (n : ℕ) : List α := (List.range n).map cells

structure DccpOptions where
  options : ℕ → UInt8
  size : ℕ
  maxSize : ℕ
  current : ℤ

namespace DccpOptions

/-- New memory holds anything. -/
def new (memory : ℕ → UInt8) (size : ℕ) : DccpOptions where
  options := memory
  size := 0
  maxSize := size % 2 ^ 16
  current := optErrWalk

variable (o : DccpOptions)

/-- The stored bytes. -/
def contents : List UInt8 := firstCells o.options o.size

/-- Store a byte behind the others. -/
def push (b : UInt8) : DccpOptions :=
  { o with options := Function.update o.options o.size b, size := (o.size + 1) % 2 ^ 16 }

def pushAll (bytes : List UInt8) : DccpOptions := bytes.foldl push o

def addOption (type : UInt8) (data : ℕ → UInt8) (dataSize : UInt8) : ℤ × DccpOptions :=
  let length := if dataSize = 0 then 1 else dataSize.toNat + 2
  if (type < singleByteLimit ∧ 0 < dataSize) ∨ (singleByteLimit ≤ type ∧ dataSize = 0) ∨
      optMaxLength < length then
    (optErrSize, o)
  else if o.maxSize < o.size + length then (optErrFull, o)
  else if 0 < dataSize then
    (optNoErr, ((o.push type).push (.ofNat length)).pushAll (firstCells data dataSize.toNat))
  else (optNoErr, o.push type)

def addFeatureOption (type featNum : UInt8) (data : ℕ → UInt8) (dataSize : UInt8) :
    ℤ × DccpOptions :=
  let length := dataSize.toNat + 3
  if dataSize = 0 ∨ optMaxLength < length then (optErrSize, o)
  else if type < optChangeL ∨ optConfirmR < type then (optErrType, o)
  else if o.maxSize < o.size + length then (optErrFull, o)
  else
    (optNoErr, (((o.push type).push (.ofNat length)).push featNum).pushAll
      (firstCells data dataSize.toNat))

/-- The byte at a position of a walk. -/
def byteAt (walker : ℤ) : UInt8 := o.options walker.toNat

/-- The size of the data of the option at a position. -/
def dataSizeAt (walker : ℤ) : ℤ := (o.byteAt (walker + 1)).toNat - 2

/-- The data of the option at a position. -/
def dataAt (walker : ℤ) : List UInt8 :=
  firstCells (fun i => o.byteAt (walker + 2 + i)) (o.dataSizeAt walker).toNat

/-- The loop of `getOption`, which yields the result and the data. -/
def getFrom (type maxSize : UInt8) : ℕ → ℤ → Option (ℤ × List UInt8)
  | 0, _ => none
  | n + 1, walker =>
    if walker < o.size then
      if o.byteAt walker < singleByteLimit then
        if o.byteAt walker = type then some (optNoErr, []) else getFrom type maxSize n (walker + 1)
      else if o.byteAt walker = type then
        if o.dataSizeAt walker ≤ maxSize.toNat then some (o.dataSizeAt walker, o.dataAt walker)
        else some (optErrSize, [])
      else getFrom type maxSize n (walker + 2 + o.dataSizeAt walker)
    else some (optErrNotFound, [])

def getOption (type maxSize : UInt8) : Option (ℤ × List UInt8) :=
  o.getFrom type maxSize (o.size + 1) 0

def startOptionWalk : DccpOptions := { o with current := 0 }

/-- The result, and the type and the data that it writes. -/
def nextOption (maxSize : UInt8) : ℤ × Option (UInt8 × List UInt8) × DccpOptions :=
  if o.current = optErrWalk then (optErrWalk, none, o)
  else if o.size ≤ o.current then (optErrNotFound, none, o)
  else if o.byteAt o.current < singleByteLimit then
    (optNoErr, some (o.byteAt o.current, []), { o with current := o.current + 1 })
  else if o.dataSizeAt o.current ≤ maxSize.toNat then
    (o.dataSizeAt o.current, some (o.byteAt o.current, o.dataAt o.current),
      { o with current := o.current + 2 + o.dataSizeAt o.current })
  else (optErrSize, none, o)

/-- The loop of `parseOptions`, which goes on until a result is an error. -/
def walkFrom (maxSize : UInt8) : ℕ → DccpOptions → Option (ℤ × List (UInt8 × List UInt8))
  | 0, _ => none
  | n + 1, o =>
    match o.nextOption maxSize with
    | (result, found, o) =>
      if result < 0 then some (result, [])
      else (walkFrom maxSize n o).map fun r => (r.1, found.toList ++ r.2)

/-- The options that a walk from the start finds, with the error that ends it. -/
def walk : Option (ℤ × List (UInt8 × List UInt8)) :=
  walkFrom (.ofNat optMaxLength) (o.size + 1) o.startOptionWalk

end DccpOptions

inductive OptionCall
  | addOption (type : UInt8) (data : ℕ → UInt8) (dataSize : UInt8)
  | addFeatureOption (type featNum : UInt8) (data : ℕ → UInt8) (dataSize : UInt8)

/-- The type and the data of the option that a call adds. -/
def OptionCall.option : OptionCall → UInt8 × List UInt8
  | addOption type data dataSize => (type, firstCells data dataSize.toNat)
  | addFeatureOption type featNum data dataSize =>
    (type, featNum :: firstCells data dataSize.toNat)

def DccpOptions.call (o : DccpOptions) : OptionCall → ℤ × DccpOptions
  | .addOption type data dataSize => o.addOption type data dataSize
  | .addFeatureOption type featNum data dataSize => o.addFeatureOption type featNum data dataSize

/-- The calls that add options to a buffer. -/
def optionMachine (maxSize : ℕ) : Machine DccpOptions OptionCall Empty where
  Init o := ∃ memory, o = .new memory maxSize
  Enabled _ _ := True
  step o c := .ok (o.call c).2

/-- The options that have been added. -/
def optionHistory (maxSize : ℕ) : Machine (DccpOptions × List (UInt8 × List UInt8)) OptionCall
    Empty :=
  (optionMachine maxSize).withHistory [] fun o c _ added =>
    if (o.call c).1 = optNoErr then added ++ [c.option] else added

end Ns2XPass
