import Mathlib.Data.BitVec
import Mathlib.Tactic.Basic
import Ns2XPass.Library.DoublyLinked

/-! # The reassembly queue

A receiver keeps the blocks of data that have arrived in a doubly linked list
by sequence number (FIFO) and in another by time of insertion (LIFO). The
memory of the blocks is split by field: each field of `seginfo` is a function
of the address of a block, the links of each list among them.
-/

namespace Ns2XPass

abbrev TcpSeq := ℤ

abbrev TcpFlag := BitVec 32

abbrev RqFlag := BitVec 32

/-- The ways a call can fail: the two tests of `add` that abort, an access through a null
pointer, and a loop that does not end within the number of steps it is given. -/
inductive RqError
  | endBeforeStart
  | lifoNotEmpty
  | nullPointer
  | outOfSteps
  deriving DecidableEq

/-- `fifo` holds `next_`, `prev_`, `head_` and `tail_`, and `lifo` holds `snext_`, `sprev_`,
`top_` and `bottom_`. The blocks from the address `brk` on have never been allocated. -/
structure ReassemblyQueue where
  fifo : Links ℕ
  lifo : Links ℕ
  startseq : ℕ → TcpSeq
  endseq : ℕ → TcpSeq
  pflags : ℕ → TcpFlag
  rqflags : ℕ → RqFlag
  cnt : ℕ → ℤ
  freelist : Option ℕ
  brk : ℕ
  hint : Option ℕ
  total : ℤ
  rcvNxt : TcpSeq

namespace ReassemblyQueue

variable (rq : ReassemblyQueue)

def empty : Bool := rq.fifo.head.isNone

def newseginfo : ℕ × ReassemblyQueue :=
  match rq.freelist with
  | some s => (s, { rq with freelist := rq.fifo.next s })
  | none => (rq.brk, { rq with brk := rq.brk + 1 })

def deleteseginfo (s : ℕ) : ReassemblyQueue :=
  { rq with
    fifo := { rq.fifo with next := Function.update rq.fifo.next s rq.freelist }
    freelist := some s }

/-- Unlink a block from its FIFO. -/
def fremove (p : ℕ) : ReassemblyQueue :=
  { rq with
    hint := if rq.hint = some p then none else rq.hint
    fifo := rq.fifo.remove p }

/-- Unlink a block from its LIFO. -/
def sremove (p : ℕ) : ReassemblyQueue :=
  { rq with
    hint := if rq.hint = some p then none else rq.hint
    lifo := rq.lifo.remove p }

/-- Push a block on the LIFO. -/
def push (p : ℕ) : ReassemblyQueue :=
  { rq with lifo := rq.lifo.insert none p rq.lifo.head }

/-! ## Clearing -/

/-- The loop of `clear`, which deletes the block at `head_` until there is none. -/
def deleteAll : ℕ → ReassemblyQueue → Except RqError ReassemblyQueue
  | 0, rq => if rq.empty then .ok rq else .error .outOfSteps
  | n + 1, rq =>
    match rq.fifo.head with
    | none => .ok rq
    | some p =>
      deleteAll n ({ rq with fifo := { rq.fifo with head := rq.fifo.next p } }.deleteseginfo p)

def clear : Except RqError ReassemblyQueue := do
  let rq ← deleteAll rq.brk
    { rq with
      fifo := { rq.fifo with tail := none }
      lifo := { rq.lifo with head := none, tail := none }
      hint := none }
  return { rq with fifo := { rq.fifo with tail := none }, total := 0 }

def init (rcvnxt : TcpSeq) : Except RqError ReassemblyQueue :=
  { rq with rcvNxt := rcvnxt }.clear

/-- The loop of `clearto` at the block `p`. It yields the block it stops at. -/
def clearBelow (seq : TcpSeq) :
    ℕ → ReassemblyQueue → TcpFlag → Option ℕ →
      Except RqError (ReassemblyQueue × TcpFlag × Option ℕ)
  | _, rq, flag, none => .ok (rq, flag, none)
  | 0, _, _, some _ => .error .outOfSteps
  | n + 1, rq, flag, some p =>
    if rq.endseq p ≤ seq then
      clearBelow seq n
        ((({ rq with total := rq.total - (rq.endseq p - rq.startseq p) }.sremove p).fremove
          p).deleteseginfo p)
        (flag ||| rq.pflags p) (rq.fifo.next p)
    else .ok (rq, flag, some p)

/-- What `clearto` does at the block `p` it stops at, which may have to be trimmed. -/
def trim (seq : TcpSeq) (flag : TcpFlag) (p : ℕ) : ReassemblyQueue × TcpFlag :=
  if rq.startseq p ≤ seq ∧ seq < rq.endseq p then
    ({ rq with
        total := rq.total - (seq - rq.startseq p)
        startseq := Function.update rq.startseq p seq },
      flag ||| rq.pflags p)
  else (rq, flag)

def clearto (seq : TcpSeq) : Except RqError (ReassemblyQueue × TcpFlag) := do
  let (rq, flag, p) ← clearBelow seq (rq.brk + 1) rq 0 rq.fifo.head
  match p with
  | none => return (rq, flag)
  | some p => return rq.trim seq flag p

def cleartonxt : Except RqError (ReassemblyQueue × TcpFlag) := rq.clearto rq.rcvNxt

/-! ## Adding -/

/-- Join the new block `n` to the block `p` before it and the block `q` after it where they
touch. It yields the block that results. -/
def join (p : Option ℕ) (n : ℕ) (q : Option ℕ) : ReassemblyQueue × TcpFlag × Option ℕ :=
  match p.filter fun p => rq.endseq p = rq.startseq n,
    q.filter fun q => rq.endseq n = rq.startseq q with
  | some p, some q =>
    let rq' := (((rq.sremove n).fremove n).sremove q).fremove q
    let rq' :=
      { rq' with
        endseq := Function.update rq.endseq p (rq.endseq q)
        cnt := Function.update rq.cnt p (rq.cnt p + (rq.cnt n + rq.cnt q))
        pflags := Function.update rq.pflags p (rq.pflags p ||| rq.pflags n) }
    ((rq'.deleteseginfo n).deleteseginfo q, rq.pflags p ||| rq.pflags n, some p)
  | some p, none =>
    let rq' :=
      { (rq.sremove n).fremove n with
        endseq := Function.update rq.endseq p (rq.endseq n)
        pflags := Function.update rq.pflags p (rq.pflags p ||| rq.pflags n)
        cnt := Function.update rq.cnt p (rq.cnt p + rq.cnt n) }
    (rq'.deleteseginfo n, rq.pflags p ||| rq.pflags n, some p)
  | none, some q =>
    let rq' :=
      { (rq.sremove n).fremove n with
        startseq := Function.update rq.startseq q (rq.startseq n)
        pflags := Function.update rq.pflags q (rq.pflags q ||| rq.pflags n)
        cnt := Function.update rq.cnt q (rq.cnt q + rq.cnt n) }
    (rq'.deleteseginfo n, rq.pflags q ||| rq.pflags n, some q)
  | none, none => (rq, 0, p)

/-- Let `rcv_nxt_` go on to the end of the block `p` that it has reached. -/
def advance (p : ℕ) : ReassemblyQueue :=
  { rq with rcvNxt := if rq.startseq p ≤ rq.rcvNxt then rq.endseq p else rq.rcvNxt }

def coalesce (p : Option ℕ) (n : ℕ) (q : Option ℕ) : Except RqError (ReassemblyQueue × TcpFlag) :=
  match rq.join p n q with
  | (_, _, none) => .error .nullPointer
  | (rq, flags, some p) => .ok (rq.advance p, flags)

variable (sseq eseq : TcpSeq) (tiflags : TcpFlag) (rqflags : RqFlag) (initcnt : ℤ)

/-- A new block with what `add` writes into it, apart from its links. -/
def newBlock : ℕ × ReassemblyQueue :=
  let (n, rq) := rq.newseginfo
  (n,
    { rq with
      startseq := Function.update rq.startseq n sseq
      endseq := Function.update rq.endseq n eseq
      pflags := Function.update rq.pflags n tiflags
      rqflags := Function.update rq.rqflags n rqflags
      cnt := Function.update rq.cnt n initcnt })

/-- The end of `add`: a new block between the blocks `p` and `q`. -/
def endfast (needmerge : Bool) (p q : Option ℕ) : Except RqError (ReassemblyQueue × TcpFlag) :=
  let (n, rq) := rq.newBlock sseq eseq tiflags rqflags initcnt
  let rq := rq.push n
  let rq := { rq with fifo := rq.fifo.insert p n q, total := rq.total + (eseq - sseq) }
  if needmerge then rq.coalesce p n q
  else .ok ({ rq with rcvNxt := if sseq ≤ rq.rcvNxt then eseq else rq.rcvNxt }, tiflags)

/-- How the loop of `add` over the overlapped blocks can end: it meets a block that is exactly
the new one, or it has deleted those that the new one covers. -/
inductive Scan
  | exact (rq : ReassemblyQueue) (flags : TcpFlag)
  | done (rq : ReassemblyQueue) (tiflags : TcpFlag) (initcnt : ℤ) (altered : Bool)

/-- The loop at the block `r`, up to the block `q`. Exact duplicates are not counted in `cnt_`,
since `RQC_CNTDUPS` is `FALSE`. -/
def kill (q : Option ℕ) :
    ℕ → ReassemblyQueue → TcpFlag → ℤ → Bool → Option ℕ → Except RqError Scan
  | _, rq, tiflags, initcnt, altered, none => .ok (.done rq tiflags initcnt altered)
  | 0, _, _, _, _, some _ => .error .outOfSteps
  | n + 1, rq, tiflags, initcnt, altered, some r =>
    if q = some r then .ok (.done rq tiflags initcnt altered)
    else if sseq = rq.startseq r ∧ eseq = rq.endseq r then
      .ok (.exact { rq with pflags := Function.update rq.pflags r (rq.pflags r ||| tiflags) }
        (rq.pflags r ||| tiflags))
    else if sseq ≤ rq.startseq r ∧ rq.endseq r ≤ eseq then
      kill q n
        ((({ rq with total := rq.total - (rq.endseq r - rq.startseq r) }.fremove r).sremove
          r).deleteseginfo r)
        (tiflags ||| rq.pflags r) (initcnt + rq.cnt r) true (rq.fifo.next r)
    else kill q n rq tiflags initcnt altered (rq.fifo.next r)

/-- The left-side merge into the block `p`: what is left to insert begins at its end. -/
def mergeLeft (p : ℕ) : ReassemblyQueue :=
  { rq with
    total := if sseq < rq.startseq p then rq.total + (rq.startseq p - sseq) else rq.total
    startseq := Function.update rq.startseq p (min sseq (rq.startseq p))
    pflags := Function.update rq.pflags p (rq.pflags p ||| tiflags)
    cnt := Function.update rq.cnt p (rq.cnt p + 1) }

/-- The right-side merge into the block `q`: what is left to insert ends at its start. The
count of `q` is not increased, since `needmerge` has just been set. -/
def mergeRight (q : ℕ) : ReassemblyQueue :=
  { rq with
    total := if rq.endseq q < eseq then rq.total + (eseq - rq.endseq q) else rq.total
    endseq := Function.update rq.endseq q (max eseq (rq.endseq q))
    pflags := Function.update rq.pflags q (rq.pflags q ||| tiflags) }

/-- The block for the left-side merge: the one after `p`, if it starts before the new one.
Without a block `p` it is the first of all. -/
def leftBlock (p : Option ℕ) : Except RqError (Option ℕ) :=
  match p with
  | none =>
    match rq.fifo.head with
    | none => .error .nullPointer
    | some b => .ok (some b)
  | some p =>
    match rq.fifo.next p with
    | none => .error .nullPointer
    | some b => .ok (if rq.startseq b < sseq then some b else none)

/-- The block for the right-side merge: the one before `q`, if it ends after the new one.
Without a block `q` it is the last of all. -/
def rightBlock (q : Option ℕ) : Except RqError (Option ℕ) :=
  match q with
  | none =>
    match rq.fifo.tail with
    | none => .error .nullPointer
    | some b => .ok (some b)
  | some q =>
    match rq.fifo.prev q with
    | none => .error .nullPointer
    | some b => .ok (if eseq < rq.endseq b then some b else none)

/-- Whether the new block fits between `p` and `q` and touches one of them. -/
def adjacent (p q : Option ℕ) : Except RqError Bool :=
  match p with
  | none => .error .nullPointer
  | some p =>
    if rq.fifo.next p = q ∧ rq.endseq p ≤ sseq then
      match q with
      | none => .error .nullPointer
      | some q =>
        .ok (decide (eseq ≤ rq.startseq q ∧ (rq.endseq p = sseq ∨ rq.startseq q = eseq)))
    else .ok false

/-- What `add` does once it has merged: there is nothing left to insert, or a new block fills
what is left. -/
def fill (needmerge : Bool) (p q : Option ℕ) : Except RqError (ReassemblyQueue × TcpFlag) :=
  if eseq ≤ sseq then
    match rq.fifo.head with
    | none => .error .nullPointer
    | some h => .ok (rq.advance h, tiflags)
  else do
    let needmerge ← if needmerge then .ok true else rq.adjacent sseq eseq p q
    rq.endfast sseq eseq tiflags rqflags initcnt needmerge p q

def mergeFrom (needmerge : Bool) (p q : Option ℕ) : Except RqError (ReassemblyQueue × TcpFlag) := do
  match ← rq.rightBlock eseq q with
  | none => rq.fill sseq eseq tiflags rqflags initcnt needmerge p q
  | some b =>
    (rq.mergeRight eseq tiflags b).fill sseq (rq.startseq b) tiflags rqflags initcnt true p (some b)

def merge (p q : Option ℕ) : Except RqError (ReassemblyQueue × TcpFlag) := do
  match ← rq.leftBlock sseq p with
  | none => rq.mergeFrom sseq eseq tiflags rqflags initcnt false p q
  | some b =>
    (rq.mergeLeft sseq tiflags b).mergeFrom (rq.endseq b) eseq tiflags rqflags (initcnt - 1) true
      (some b) q

/-- The body of `add` from the label `again2` on, where the block `h` is at the head and the
block `t` at the tail. It starts again when blocks have been deleted. -/
def again2 : ℕ → ReassemblyQueue → TcpFlag → ℤ → Except RqError (ReassemblyQueue × TcpFlag)
  | 0, _, _, _ => .error .outOfSteps
  | n + 1, rq, tiflags, initcnt =>
    match rq.fifo.head, rq.fifo.tail with
    | some h, some t =>
      if rq.endseq t ≤ sseq then
        rq.endfast sseq eseq tiflags rqflags initcnt (sseq = rq.endseq t) (some t) none
      else if eseq ≤ rq.startseq h then
        rq.endfast sseq eseq tiflags rqflags initcnt (eseq = rq.startseq h) none (some h)
      else
        match seek rq.fifo.next (fun b => rq.startseq b < eseq) (rq.brk + 1) (some h),
          seek rq.fifo.prev (fun b => sseq < rq.endseq b) (rq.brk + 1) (some t) with
        | some q, some p => do
          match ← kill sseq eseq q (rq.brk + 1) rq tiflags initcnt false (p <|> some h) with
          | .exact rq flags => return (rq, flags)
          | .done rq tiflags initcnt altered =>
            if rq.empty then rq.endfast sseq eseq tiflags rqflags initcnt false p q
            else if altered then again2 n rq tiflags initcnt
            else rq.merge sseq eseq tiflags rqflags initcnt p q
        | _, _ => .error .outOfSteps
    | _, _ => .error .nullPointer

def add : Except RqError (ReassemblyQueue × TcpFlag) :=
  if eseq < sseq then .error .endBeforeStart
  else
    match rq.fifo.head, rq.lifo.head with
    | none, some _ => .error .lifoNotEmpty
    | none, none =>
      let (n, rq) := rq.newBlock sseq eseq tiflags rqflags 1
      .ok
        ({ rq with
            fifo := rq.fifo.insert none n none
            lifo := rq.lifo.insert none n none
            total := eseq - sseq
            rcvNxt := if sseq ≤ rq.rcvNxt then eseq else rq.rcvNxt },
          tiflags)
    | some _, _ => again2 sseq eseq rqflags (rq.brk + 2) rq tiflags 1

end ReassemblyQueue

/-- The calls of a reassembly queue that change it. -/
inductive RqCall
  | add (sseq eseq : TcpSeq) (tiflags : TcpFlag) (rqflags : RqFlag)
  | clearto (seq : TcpSeq)
  | cleartonxt
  | clear
  | init (rcvnxt : TcpSeq)

def RqCall.step (rq : ReassemblyQueue) : RqCall → Except RqError ReassemblyQueue
  | .add sseq eseq tiflags rqflags => (rq.add sseq eseq tiflags rqflags).map Prod.fst
  | .clearto seq => (rq.clearto seq).map Prod.fst
  | .cleartonxt => rq.cleartonxt.map Prod.fst
  | .clear => rq.clear
  | .init rcvnxt => rq.init rcvnxt

end Ns2XPass
