import Mathlib.Algebra.Group.Nat.Defs
import Mathlib.Algebra.Ring.Int.Defs
import Mathlib.Data.Nat.Size
import Mathlib.Data.List.Basic

/-! # Nix vectors

A `NixVec` packs the neighbour indices of a route into cells of 32 bits, from the
highest bit on. A cell is an `unsigned long` of 64 bits. The first cell is kept in
the pointer itself while it is the only one.
-/

namespace Ns2XPass

/-- The value of an `unsigned long`. -/
def wrap64 (x : ℕ) : ℕ := x % 2 ^ 64

/-- `x << k` for an `unsigned long`. -/
def shiftLeft64 (x k : ℕ) : ℕ := wrap64 (x <<< k)

/-- `NIX_NONE`. -/
def nixNone : ℕ := 0xffffffff

/-- `NIX_BPW`. -/
def nixBpw : ℕ := 32

/-- `m_pNV`: the only cell, or a pointer to all of them. -/
inductive NixCells
  | word (w : ℕ)
  | array (cells : List ℕ)
  deriving DecidableEq

/-- Counts of bits are `unsigned long`. -/
structure NixVec where
  pNV : NixCells := .word 0
  used : ℕ := 0
  alth : ℕ := 0
  deriving DecidableEq

/-- `cells[i] |= bits`. -/
def orAt (cells : List ℕ) (i bits : ℕ) : List ℕ := cells.modify i (· ||| bits)

namespace NixVec

variable (v : NixVec)

/-- `Lth`: the bits of the cells that are allocated. -/
def lth : ℕ := if v.alth = 0 then nixBpw else ((v.alth - 1) / nixBpw + 1) * nixBpw

def cells : List ℕ :=
  match v.pNV with
  | .word w => [w]
  | .array cells => cells

/-- The cells behind `m_pNV` once there is one more, which is zero. -/
def grown : List ℕ := v.cells.take (v.lth / nixBpw) ++ [0]

/-- `NIX_BPW - m_used + (lth - 32) - n`, whose intermediate values may be below zero. -/
def shiftOf (used lth n : ℕ) : ℕ := ((nixBpw : ℤ) - used + (lth - 32) - n).toNat

/-- `Add` of a value with its number of bits. -/
def add (p : ℕ × ℕ) : NixVec :=
  if p.2 = 0 then v
  else
    let newused := wrap64 (v.used + p.2)
    let pNV :=
      if v.lth < newused then
        let newlth := v.lth + nixBpw
        let i := v.used / nixBpw
        if v.used = v.lth then
          .array (orAt v.grown i (shiftLeft64 p.1 (shiftOf v.used newlth p.2)))
        else
          let left := v.lth - v.used
          let pNew := orAt v.grown i (p.1 >>> (p.2 - left))
          .array (orAt pNew (i + 1) (shiftLeft64 p.1 (nixBpw - (p.2 - left))))
      else
        let newbits := shiftLeft64 p.1 (shiftOf v.used v.lth p.2)
        match v.pNV with
        | .word w => .word (w ||| newbits)
        | .array cells => .array (orAt cells (v.used / nixBpw) newbits)
    { pNV, used := newused, alth := max v.alth newused }

def cell (i : ℕ) : ℕ := v.cells.getD i 0

/-- `Extract`. The mask `0x80000000` is a positive `long`, so that shifting it to the right leaves a
single bit. -/
def extract (n : ℕ) : ℕ × NixVec :=
  let word := v.used / nixBpw
  let bit := v.used - word * nixBpw
  if v.alth < wrap64 (v.used + n) then (nixNone, v)
  else
    let w :=
      if wrap64 (bit + n) ≤ nixBpw then
        let m := 0x80000000 >>> (n - 1)
        (v.cell word &&& m >>> bit) >>> (nixBpw - bit - n)
      else
        let t := nixBpw - bit
        let m := 0x80000000 >>> (t - 1)
        let w := v.cell word &&& m >>> bit
        let t := n - t
        shiftLeft64 w t ||| v.cell (word + 1) >>> (nixBpw - t)
    (w, { v with used := wrap64 (v.used + n) })

def reset : NixVec := { v with used := 0 }

/-- The vector with the pairs that are added to an empty one. -/
def ofPairs (ps : List (ℕ × ℕ)) : NixVec := ps.foldl add {}

def extractAll : List ℕ → NixVec → List ℕ × NixVec
  | [], v => ([], v)
  | n :: ns, v =>
    let (w, v) := v.extract n
    let (ws, v) := extractAll ns v
    (w :: ws, v)

end NixVec

/-- The loop of `GetBitl`. -/
def getBitlFrom (l : ℕ) : ℕ → ℕ
  | 0 => 1
  | h + 1 => if (1 <<< (h + 1)) &&& l ≠ 0 then h + 2 else getBitlFrom l h

/-- `GetBitl`: the number of bits that are needed for values up to `l`. -/
def getBitl (l : ℕ) : ℕ :=
  let h := if l &&& 0xFFFF0000 = 0 then if l &&& 0xFFFFFF00 = 0 then 7 else 15 else 31
  getBitlFrom l h

section Nodes

variable {N : Type*} [DecidableEq N]

/-- `GetNixl` of a node with these neighbours. -/
def getNixl (adj : List N) : ℕ := getBitl (wrap64 (adj.length + (2 ^ 64 - 1)))

/-- `GetNix`: the index of a neighbour and its number of bits. -/
def getNix (adj : List N) (t : N) : ℕ × ℕ :=
  match adj.findIdx? (· = t) with
  | some i => (i, getNixl adj)
  | none => (nixNone, 0)

/-- `GetNeighbor`, which exits if there is no such index. -/
def getNeighbor (adj : List N) (n : ℕ) : Option N := adj[n]?

/-- The pairs of the hops of a route. -/
def hopPairs (adj : N → List N) : N → List N → List (ℕ × ℕ)
  | _, [] => []
  | s, t :: hops => getNix (adj s) t :: hopPairs adj t hops

/-- Each node looks up its neighbour in the vector. -/
def decodeHops (adj : N → List N) : ℕ → N → NixVec → Option (List N)
  | 0, _, _ => some []
  | k + 1, s, v =>
    let r := v.extract (getNixl (adj s))
    (getNeighbor (adj s) r.1).bind fun t => (decodeHops adj k t r.2).map (t :: ·)

end Nodes

end Ns2XPass
