import Mathlib.Data.Int.Bitwise
import Mathlib.Logic.Function.Basic
import Ns2XPass.Library.Ruler

/-! # The weight matrix of smoothed round robin

A queue has a node in each column whose number is a bit of its weight. The
columns are scanned in the order of the weight spread sequence, in which a
column is twice as frequent as the one to its left.
-/

namespace Ns2XPass

/-- The ways that a call can end the program: by an `exit` or an `assert`, through a null pointer,
or in a loop that does not end within the number of steps it is given. -/
inductive SRRError
  | queueidTooBig
  | weightZero
  | weightTooBig
  | ptrTooLarge
  | emptyMatrix
  | noCurrent
  | wrongPlace
  | wrongQueue
  | negativeCount
  | rateTooHigh
  | bandTooBig
  | nullPointer
  | outOfSteps
  deriving DecidableEq

/-! ## The weight spread sequence -/

/-- `MAXWSSORDER` -/
def maxWssOrder : ℕ := 16

/-- `rawScan` of `i` from `j` on, where `N` is `j + n`. -/
def rawScan (i : ℕ) : ℕ → ℕ → ℕ
  | 0, j => j
  | n + 1, j => if i % 2 ^ j ≠ 0 then j else rawScan i n (j + 1)

/-- `pwss[i]`, which `init` writes. -/
def pwss (i : ℕ) : ℕ := rawScan (i + 1) (maxWssOrder - 1) 1

variable {i j k n : ℕ}

theorem rawScan_eq (hd : 2 ^ k ∣ i) (hnd : ¬ 2 ^ (k + 1) ∣ i) (hj : j ≤ k + 1)
    (hn : k + 1 ≤ j + n) : rawScan i n j = k + 1 := by
  induction n generalizing j with
  | zero => exact hj.antisymm hn
  | succ n ih =>
    rw [rawScan]
    rcases hj.lt_or_eq with hlt | rfl
    · have hmod : i % 2 ^ j = 0 :=
        Nat.mod_eq_zero_of_dvd ((pow_dvd_pow 2 (Nat.lt_succ_iff.mp hlt)).trans hd)
      rw [if_neg (not_not.mpr hmod)]
      exact ih hlt (by omega)
    · exact if_pos fun hmod => hnd (Nat.dvd_of_mod_eq_zero hmod)

theorem pwss_eq (h : (ruler n)[i]? = some k) (hn : n ≤ maxWssOrder) : pwss i = k + 1 := by
  obtain ⟨hd, hnd⟩ := dvd_of_ruler h
  have hk := lt_of_mem_ruler (List.mem_of_getElem? h)
  unfold maxWssOrder at hn
  exact rawScan_eq hd hnd (by omega) (by unfold maxWssOrder; omega)

/-! ## Nodes and columns -/

structure WmNode where
  queueid : ℕ
  weight : ℕ
  deriving DecidableEq

/-- The element after `q`. -/
def follower : List ℕ → ℕ → Option ℕ
  | [], _ => none
  | x :: xs, q => if x = q then xs.head? else follower xs q

/-- Insert `x` before `q`. -/
def insertBefore : List ℕ → ℕ → ℕ → List ℕ
  | [], _, x => [x]
  | y :: ys, q, x => if y = q then x :: y :: ys else y :: insertBefore ys q x

/-- A column is the list of the queues that have a node between its head and its tail, and a row
that of the columns in which a queue has a node, linked by `sibling`. `order` is one more than
`currMaxColumn`, and `ptr` belongs to the weight spread sequence. -/
structure WeightMatrix where
  columns : ℕ → List ℕ := fun _ => []
  rows : ℕ → List ℕ := fun _ => []
  pwmCurr : Option WmNode := none
  wmEmptyFlag : Bool := true
  order : ℕ := 0
  ptr : ℕ := 0

namespace WeightMatrix

variable (m : WeightMatrix) (q c : ℕ)

/-- `inc_ptr` -/
def incPtr : ℕ := if 2 ^ m.order < m.ptr + 1 + 2 then 0 else m.ptr + 1

/-- The loop that looks for a column that is not empty. -/
def seekColumn : ℕ → WeightMatrix → Except SRRError WeightMatrix
  | 0, _ => .error .outOfSteps
  | n + 1, m =>
    if 2 ^ m.order < m.ptr + 2 then .error .ptrTooLarge
    else
      let temp := m.order - pwss m.ptr
      let m := { m with ptr := m.incPtr }
      match m.columns temp with
      | q :: _ => .ok { m with pwmCurr := some ⟨q, temp⟩ }
      | [] => seekColumn n m

/-- The last column is among any two that follow each other in the sequence. -/
def seekSteps : ℕ := 2

/-- `getNextNode`, when the queue holds bytes. -/
def getNextNode : Except SRRError WeightMatrix :=
  match m.pwmCurr with
  | none => .error .nullPointer
  | some node =>
    match follower (m.columns node.weight) node.queueid with
    | some q => .ok { m with pwmCurr := some ⟨q, node.weight⟩ }
    | none => if m.order = 0 then .error .emptyMatrix else seekColumn seekSteps m

/-- A new node goes before the current one of its column, or to the end of it. -/
def place : List ℕ :=
  match m.pwmCurr with
  | some node =>
    if node.weight = c then insertBefore (m.columns c) node.queueid q else m.columns c ++ [q]
  | none => m.columns c ++ [q]

def addNode : WeightMatrix :=
  { m with
    rows := Function.update m.rows q (m.rows q ++ [c])
    columns := Function.update m.columns c (m.place q c)
    order := max m.order (c + 1)
    wmEmptyFlag := false
    pwmCurr := if m.wmEmptyFlag ∧ m.pwmCurr = none then some ⟨q, c⟩ else m.pwmCurr }

/-- The loop of `add_to_WM` over the columns below `n`, from the last one on. -/
def addNodes (weight : ℤ) : ℕ → WeightMatrix → WeightMatrix
  | 0, m => m
  | n + 1, m => addNodes weight n (if weight.testBit n then m.addNode q n else m)

/-- The pointer of the sequence when the order rises to `order`. -/
def scaleUp (order : ℕ) : ℕ :=
  if m.order < order ∧ 0 < m.order then (m.ptr + 1) * 2 ^ (order - m.order) - 1 else m.ptr

def addToWM (maxColumn : ℕ) (weight : ℤ) : Except SRRError WeightMatrix :=
  if weight = 0 then .error .weightZero
  else if 2 ^ (maxColumn + 1) - 1 < weight then .error .weightTooBig
  else
    let m' := addNodes q weight (maxColumn + 1) m
    .ok { m' with ptr := m.scaleUp m'.order }

/-- The number of columns up to the last of the first `n` that is not empty. -/
def topColumn : ℕ → ℕ
  | 0 => 0
  | n + 1 => if m.columns n ≠ [] then n + 1 else topColumn n

/-- The pointer of the sequence when the order falls to `order`. -/
def scaleDown (order : ℕ) : ℕ :=
  if order < m.order then
    let pc := m.ptr + 1
    let mul := 2 ^ (m.order - order)
    let tmpc := pc / mul
    let tmpc := if pc % mul = 0 then tmpc else if 2 ^ order - 1 < tmpc + 1 then 1 else tmpc + 1
    tmpc - 1
  else m.ptr

/-- The nodes of a queue are unlinked. The current one gives way to the next one of its column. -/
def unlink (node : WmNode) : WeightMatrix :=
  { m with
    pwmCurr :=
      if node.queueid = q then
        (follower (m.columns node.weight) q).map fun x => ⟨x, node.weight⟩
      else some node
    columns := fun c => if c ∈ m.rows q then (m.columns c).erase q else m.columns c
    rows := Function.update m.rows q [] }

def delFromWM : Except SRRError WeightMatrix :=
  match m.pwmCurr with
  | none => .error .nullPointer
  | some node =>
    let m' := m.unlink q node
    let order := m'.topColumn m.order
    if order = 0 then
      .ok { m' with wmEmptyFlag := true, order := 0, pwmCurr := none, ptr := 0 }
    else
      let m' := { m' with order := order, ptr := m.scaleDown order }
      if m'.pwmCurr = none then seekColumn seekSteps m' else .ok m'

end WeightMatrix

end Ns2XPass
