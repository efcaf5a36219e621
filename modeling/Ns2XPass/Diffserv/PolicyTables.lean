import Mathlib.Data.List.Basic
import Ns2XPass.Diffserv.Markers

/-! # The tables of a policy classifier

A packet is marked by the first policy that matches its source and its
destination, with the first policer for the policy and its code point. The
search of the policies goes one entry too far, and a policer is written into a
full table.

A table is the memory from its first entry on, so that what lies behind the
entries that have been added is anything.
-/

namespace Ns2XPass

namespace Diffserv

/-- `ANY_HOST` -/
def anyHost : ℤ := -1

/-- `MAX_POLICIES` -/
def maxPolicies : ℕ := 20

/-- `MAX_CP` -/
def maxCP : ℕ := 40

/-- The number by which a policy is found in the pool. -/
def PolicerType.index : PolicerType → ℕ
  | .null => 0
  | .tsw2cm => 1
  | .tsw3cm => 2
  | .tokenBucket => 3
  | .srTCM => 4
  | .trTCM => 5
  | .sfd => 6
  | .ew => 7
  | .dewp => 8

def PolicerType.meter : PolicerType → MeterType
  | .null => .null
  | .tsw2cm | .tsw3cm => .tswTagger
  | .tokenBucket => .tokenBucket
  | .srTCM => .srTCM
  | .trTCM => .trTCM
  | .sfd => .sfdTagger
  | .ew => .ewTagger
  | .dewp => .dewpTagger

/-- The arguments that are left for a policy behind its code point. Rates are in bits
per second. -/
inductive PolicyArgs
  | null
  | tsw2cm (cir : ℚ) (winLen : Option ℚ)
  | tsw3cm (cir pir : ℚ)
  | tokenBucket (cir cbs : ℚ)
  | srTCM (cir cbs ebs : ℚ)
  | trTCM (cir cbs pir pbs : ℚ)
  | sfd (cir : ℤ)
  | ew (threshold detection alarm : ℤ)
  | dewp (interval : ℚ)

namespace PolicyArgs

def policer : PolicyArgs → PolicerType
  | null => .null
  | tsw2cm _ _ => .tsw2cm
  | tsw3cm _ _ => .tsw3cm
  | tokenBucket _ _ => .tokenBucket
  | srTCM _ _ _ => .srTCM
  | trTCM _ _ _ _ => .trTCM
  | sfd _ => .sfd
  | ew _ _ _ => .ew
  | dewp _ => .dewp

/-- The parameters that a policy writes into its entry; the others keep what was there. -/
def fill (e : PolicyTableEntry) : PolicyArgs → PolicyTableEntry
  | null | ew _ _ _ | dewp _ => e
  | tsw2cm cir winLen =>
    { e with cir := cir / 8, avgRate := cir / 8, winLen := winLen.getD e.winLen }
  | tsw3cm cir pir => { e with cir := cir / 8, avgRate := cir / 8, pir := pir / 8 }
  | tokenBucket cir cbs =>
    { e with cir := cir / 8, avgRate := cir / 8, cbs := cbs, cBucket := cbs }
  | srTCM cir cbs ebs =>
    { e with
      cir := cir / 8, avgRate := cir / 8, cbs := cbs, cBucket := cbs, ebs := ebs
      eBucket := ebs }
  | trTCM cir cbs pir pbs =>
    { e with
      cir := cir / 8, avgRate := cir / 8, cbs := cbs, cBucket := cbs, pir := pir / 8
      pbs := pbs, pBucket := pbs }
  | sfd cir => { e with cir := cir }

end PolicyArgs

structure PolicyCommand where
  sourceNode : ℤ
  destNode : ℤ
  codePt : ℤ
  args : PolicyArgs

structure PolicerCommand where
  policer : PolicerType
  initialCodePt : ℤ
  downgrade1 : ℤ
  downgrade2 : Option ℤ

/-- A packet, as far as it is looked at. -/
structure IpPacket extends Arrival where
  saddr : ℤ
  daddr : ℤ

/-- The policies with the state that they have beside the tables. Metering and policing leaves
the fields by which an entry is found. -/
structure Policies (σ : Type) where
  create : σ → PolicyArgs → σ
  mark : σ → PolicyTableEntry → PolicerTableEntry → IpPacket → σ × PolicyTableEntry × ℤ
  sourceNode_mark : ∀ s e f p, (mark s e f p).2.1.sourceNode = e.sourceNode
  destNode_mark : ∀ s e f p, (mark s e f p).2.1.destNode = e.destNode
  codePt_mark : ∀ s e f p, (mark s e f p).2.1.codePt = e.codePt
  policyIndex_mark : ∀ s e f p, (mark s e f p).2.1.policyIndex = e.policyIndex

structure PolicyClassifier (σ : Type) where
  policyTable : ℕ → PolicyTableEntry
  policyTableSize : ℕ
  policerTable : ℕ → PolicerTableEntry
  policerTableSize : ℕ
  policyPool : ℕ → Bool
  pool : σ

namespace PolicyClassifier

variable {σ : Type}

/-- A new classifier, whatever its memory contains. -/
def new (policyTable : ℕ → PolicyTableEntry) (policerTable : ℕ → PolicerTableEntry) (pool : σ) :
    PolicyClassifier σ where
  policyTable := policyTable
  policyTableSize := 0
  policerTable := policerTable
  policerTableSize := 0
  policyPool := fun _ => false
  pool := pool

def addPolicyEntry (P : Policies σ) (c : PolicyClassifier σ) (cmd : PolicyCommand) :
    PolicyClassifier σ :=
  if c.policyTableSize = maxPolicies then c
  else
    let e := { c.policyTable c.policyTableSize with
      sourceNode := cmd.sourceNode
      destNode := cmd.destNode
      codePt := cmd.codePt
      arrivalTime := 0
      winLen := 1 }
    { c with
      policyTable := Function.update c.policyTable c.policyTableSize { cmd.args.fill e with
        policyIndex := cmd.args.policer.index
        policer := cmd.args.policer
        meter := cmd.args.policer.meter }
      policyTableSize := c.policyTableSize + 1
      policyPool := Function.update c.policyPool cmd.args.policer.index true
      pool := P.create c.pool cmd.args }

/-- The type of a policer is written only if the table is not full, the rest always. -/
def addPolicerEntry (c : PolicyClassifier σ) (cmd : PolicerCommand) : PolicyClassifier σ :=
  let e := c.policerTable c.policerTableSize
  let e := if c.policerTableSize = maxCP then e
    else { e with policer := cmd.policer, policyIndex := cmd.policer.index }
  { c with
    policerTable := Function.update c.policerTable c.policerTableSize { e with
      initialCodePt := cmd.initialCodePt
      downgrade1 := if e.policer = .null then cmd.initialCodePt else cmd.downgrade1
      downgrade2 := cmd.downgrade2.getD e.downgrade2 }
    policerTableSize := c.policerTableSize + 1
    policyPool :=
      if c.policerTableSize = maxCP then c.policyPool
      else Function.update c.policyPool cmd.policer.index true }

/-- The first index of a list with a property, and the indices that are looked at. -/
def scan (p : ℕ → Bool) : List ℕ → Option ℕ × List ℕ
  | [] => (none, [])
  | i :: is => if p i then (some i, [i]) else ((scan p is).1, i :: (scan p is).2)

def Matches (source dest : ℤ) (sourceNode destNode : ℤ) : Prop :=
  (sourceNode = source ∨ sourceNode = anyHost) ∧ (destNode = dest ∨ destNode = anyHost)

instance (source dest sourceNode destNode : ℤ) :
    Decidable (Matches source dest sourceNode destNode) :=
  inferInstanceAs (Decidable (_ ∧ _))

/-- The loop runs up to the index `policyTableSize` inclusively. -/
def getPolicyTableEntry (c : PolicyClassifier σ) (source dest : ℤ) : Option ℕ × List ℕ :=
  scan (fun i => Matches source dest (c.policyTable i).sourceNode (c.policyTable i).destNode)
    (List.range (c.policyTableSize + 1))

def getPolicerTableEntry (c : PolicyClassifier σ) (policyIndex : ℕ) (oldCodePt : ℤ) :
    Option ℕ × List ℕ :=
  scan (fun i => (c.policerTable i).policyIndex = policyIndex ∧
      (c.policerTable i).initialCodePt = oldCodePt)
    (List.range c.policerTableSize)

inductive Stop
  | exit
  | nullPolicer
  deriving DecidableEq

/-- A policy that the pool has no object for leaves the packet its code point; one without a
policer reads the fields of a null pointer. -/
def mark (P : Policies σ) (c : PolicyClassifier σ) (p : IpPacket) :
    Except Stop (PolicyClassifier σ × ℤ) :=
  match (c.getPolicyTableEntry p.saddr p.daddr).1 with
  | none => .error .exit
  | some i =>
    let policy := c.policyTable i
    if c.policyPool policy.policyIndex then
      match (c.getPolicerTableEntry policy.policyIndex policy.codePt).1 with
      | none => .error .nullPolicer
      | some j =>
        let r := P.mark c.pool policy (c.policerTable j) p
        .ok ({ c with
          policyTable := Function.update c.policyTable i r.2.1
          pool := r.1 }, r.2.2)
    else .ok (c, policy.codePt)

end PolicyClassifier

/-! ### Searching -/

/-- The entry with a property that comes first in a list, and its index. -/
structure IsFirst {α : Type} (P : α → Prop) (l : List α) (i : ℕ) (a : α) : Prop where
  get : l[i]? = some a
  holds : P a
  before : ∀ j < i, ∀ b, l[j]? = some b → ¬ P b

theorem IsFirst.lt {α : Type} {P : α → Prop} {l : List α} {i : ℕ} {a : α}
    (h : IsFirst P l i a) : i < l.length :=
  (List.getElem?_eq_some_iff.mp h.get).1

theorem exists_isFirst {α : Type} {P : α → Prop} {l : List α} (h : ∃ a ∈ l, P a) :
    ∃ i a, IsFirst P l i a := by
  induction l with
  | nil =>
    obtain ⟨a, ha, _⟩ := h
    exact absurd ha List.not_mem_nil
  | cons b l ih =>
    by_cases hb : P b
    · exact ⟨0, b, rfl, hb, fun j hj => absurd hj (Nat.not_lt_zero j)⟩
    · obtain ⟨a, ha, hp⟩ := h
      have ha' : a ∈ l := (List.mem_cons.mp ha).resolve_left fun he => hb (he ▸ hp)
      obtain ⟨i, a, hi⟩ := ih ⟨a, ha', hp⟩
      refine ⟨i + 1, a, hi.get, hi.holds, fun j hj c hc => ?_⟩
      cases j with
      | zero => exact Option.some.inj hc ▸ hb
      | succ j => exact hi.before j (by omega) c hc

namespace PolicyClassifier

theorem scan_range' {p : ℕ → Bool} {k a m : ℕ} (hk : k < m) (hp : p (a + k) = true)
    (hb : ∀ j < k, p (a + j) = false) :
    scan p (List.range' a m) = (some (a + k), List.range' a (k + 1)) := by
  induction k generalizing a m with
  | zero =>
    obtain ⟨m, rfl⟩ := Nat.exists_eq_succ_of_ne_zero hk.ne'
    have hpa : p a = true := hp
    rw [List.range'_succ, scan, if_pos hpa]
    rfl
  | succ k ih =>
    obtain ⟨m, rfl⟩ := Nat.exists_eq_succ_of_ne_zero (Nat.ne_zero_of_lt hk)
    have hpa : p a = false := hb 0 (Nat.succ_pos k)
    have hadd : a + 1 + k = a + (k + 1) := by omega
    have hrest := ih (show k < m by omega) (show p (a + 1 + k) = true by
      rw [hadd]; exact hp) fun j hj => by
        rw [Nat.add_right_comm, Nat.add_assoc]; exact hb (j + 1) (by omega)
    rw [List.range'_succ, scan, hpa, hrest, hadd]
    rfl

theorem scan_first {p : ℕ → Bool} {n i : ℕ} (hi : i < n) (hp : p i = true)
    (hb : ∀ j < i, p j = false) : scan p (List.range n) = (some i, List.range (i + 1)) := by
  rw [List.range_eq_range', List.range_eq_range',
    scan_range' hi (by rwa [Nat.zero_add]) fun j hj => by rw [Nat.zero_add]; exact hb j hj,
    Nat.zero_add]

theorem scan_none {p : ℕ → Bool} {l : List ℕ} (h : ∀ i ∈ l, p i = false) :
    scan p l = (none, l) := by
  induction l with
  | nil => rfl
  | cons i l ih =>
    obtain ⟨hi, hl⟩ := List.forall_mem_cons.mp h
    rw [scan, hi, ih hl]
    rfl

end PolicyClassifier

/-! ### Runs -/

inductive TableCall
  | addPolicyEntry (cmd : PolicyCommand)
  | addPolicerEntry (cmd : PolicerCommand)
  | mark (p : IpPacket)

/-- The commands whose entries are in the tables, in order. -/
structure Added where
  policies : List PolicyCommand
  policers : List PolicerCommand

/-- The packet goes from and to the nodes of the policy. -/
def PolicyCommand.Covers (cmd : PolicyCommand) (p : IpPacket) : Prop :=
  PolicyClassifier.Matches p.saddr p.daddr cmd.sourceNode cmd.destNode

instance (cmd : PolicyCommand) (p : IpPacket) : Decidable (cmd.Covers p) :=
  inferInstanceAs (Decidable (_ ∧ _))

/-- The policer is one for the policy and its code point. -/
def PolicerCommand.Serves (pol : PolicerCommand) (cmd : PolicyCommand) : Prop :=
  pol.policer = cmd.args.policer ∧ pol.initialCodePt = cmd.codePt

namespace TableCall

variable {σ : Type}

def apply (P : Policies σ) (c : PolicyClassifier σ) :
    TableCall → Except PolicyClassifier.Stop (PolicyClassifier σ)
  | addPolicyEntry cmd => .ok (c.addPolicyEntry P cmd)
  | addPolicerEntry cmd => .ok (c.addPolicerEntry cmd)
  | mark p => (c.mark P p).map Prod.fst

/-- An entry is added as long as its table is not full. -/
def record (added : Added) : TableCall → Added
  | addPolicyEntry cmd =>
    if added.policies.length = maxPolicies then added
    else { added with policies := added.policies ++ [cmd] }
  | addPolicerEntry cmd => { added with policers := added.policers ++ [cmd] }
  | mark _ => added

/-- No policer is added to a full table, and no packet is marked that no policy covers. -/
def Fits (added : Added) : TableCall → Prop
  | addPolicyEntry _ => True
  | addPolicerEntry _ => added.policers.length < maxCP
  | mark p => ∃ cmd ∈ added.policies, cmd.Covers p

instance (added : Added) : DecidablePred (Fits added)
  | addPolicyEntry _ => isTrue trivial
  | addPolicerEntry _ => inferInstanceAs (Decidable (_ < _))
  | mark p => inferInstanceAs (Decidable (∃ cmd ∈ added.policies, cmd.Covers p))

end TableCall

section Runs

variable {σ : Type} {P : Policies σ} {c : PolicyClassifier σ} {added : Added}

/-- The calls to a classifier, whose memory contains anything at first. -/
def tables (P : Policies σ) : Machine (PolicyClassifier σ) TableCall PolicyClassifier.Stop where
  Init c := ∃ policyTable policerTable pool, c = .new policyTable policerTable pool
  Enabled _ _ := True
  step c x := x.apply P c

def recordedTables (P : Policies σ) :
    Machine (PolicyClassifier σ × Added) TableCall PolicyClassifier.Stop :=
  (tables P).withHistory ⟨[], []⟩ fun _ x _ added => x.record added

def fittingTables (P : Policies σ) :
    Machine (PolicyClassifier σ × Added) TableCall PolicyClassifier.Stop :=
  (recordedTables P).restrict fun p x => x.Fits p.2

instance (c : PolicyClassifier σ) (x : TableCall) : Decidable ((tables P).Enabled c x) :=
  isTrue trivial

instance (p : PolicyClassifier σ × Added) (x : TableCall) :
    Decidable ((fittingTables P).Enabled p x) :=
  inferInstanceAs (Decidable (True ∧ x.Fits p.2))

/-- The tables contain what has been added. -/
structure Lists (c : PolicyClassifier σ) (added : Added) : Prop where
  policies : c.policyTableSize = added.policies.length
  policies_le : added.policies.length ≤ maxPolicies
  policers : c.policerTableSize = added.policers.length
  policers_le : added.policers.length ≤ maxCP
  policy : ∀ i cmd, added.policies[i]? = some cmd →
    (c.policyTable i).sourceNode = cmd.sourceNode ∧ (c.policyTable i).destNode = cmd.destNode ∧
      (c.policyTable i).codePt = cmd.codePt ∧
      (c.policyTable i).policyIndex = cmd.args.policer.index
  policer : ∀ i pol, added.policers[i]? = some pol →
    (c.policerTable i).policyIndex = pol.policer.index ∧
      (c.policerTable i).initialCodePt = pol.initialCodePt
  pool : ∀ cmd ∈ added.policies, c.policyPool cmd.args.policer.index = true

theorem lists_new {policyTable : ℕ → PolicyTableEntry} {policerTable : ℕ → PolicerTableEntry}
    {pool : σ} : Lists (PolicyClassifier.new policyTable policerTable pool) ⟨[], []⟩ where
  policies := rfl
  policies_le := Nat.zero_le _
  policers := rfl
  policers_le := Nat.zero_le _
  policy _ _ h := absurd h (by simp)
  policer _ _ h := absurd h (by simp)
  pool _ h := absurd h List.not_mem_nil

theorem PolicyArgs.fill_keys (args : PolicyArgs) (e : PolicyTableEntry) :
    (args.fill e).sourceNode = e.sourceNode ∧ (args.fill e).destNode = e.destNode ∧
      (args.fill e).codePt = e.codePt := by
  cases args <;> exact ⟨rfl, rfl, rfl⟩

/-- What is at an index behind the last one of a list that has grown. -/
theorem getElem?_concat {α : Type} {l : List α} {a b : α} {i : ℕ}
    (h : (l ++ [a])[i]? = some b) : l[i]? = some b ∧ i ≠ l.length ∨ i = l.length ∧ b = a := by
  rcases Nat.lt_trichotomy i l.length with hlt | rfl | hgt
  · rw [List.getElem?_append_left hlt] at h
    exact .inl ⟨h, hlt.ne⟩
  · rw [List.getElem?_concat_length] at h
    exact .inr ⟨rfl, (Option.some.inj h).symm⟩
  · rw [List.getElem?_eq_none (by simp; omega)] at h
    cases h

theorem Lists.addPolicyEntry (h : Lists c added) (cmd : PolicyCommand) :
    Lists (c.addPolicyEntry P cmd) (TableCall.record added (.addPolicyEntry cmd)) := by
  unfold PolicyClassifier.addPolicyEntry TableCall.record
  dsimp only
  rw [h.policies]
  split
  · exact h
  · next hroom =>
    have hle := h.policies_le
    refine ⟨by simp, by simp; omega, h.policers, h.policers_le, fun i cmd' hi => ?_, h.policer,
      fun cmd' hm => ?_⟩
    · dsimp only
      rcases getElem?_concat hi with ⟨hi, hne⟩ | ⟨rfl, rfl⟩
      · rw [Function.update_of_ne hne]
        exact h.policy i cmd' hi
      · rw [Function.update_self]
        obtain ⟨hs, hd, hc⟩ := cmd'.args.fill_keys { c.policyTable added.policies.length with
          sourceNode := cmd'.sourceNode
          destNode := cmd'.destNode
          codePt := cmd'.codePt
          arrivalTime := 0
          winLen := 1 }
        exact ⟨hs, hd, hc, rfl⟩
    · dsimp only
      by_cases he : cmd'.args.policer.index = cmd.args.policer.index
      · rw [he, Function.update_self]
      · rw [Function.update_of_ne he]
        rcases List.mem_append.mp hm with hm | hm
        · exact h.pool cmd' hm
        · exact absurd (List.mem_singleton.mp hm ▸ rfl) he

theorem Lists.addPolicerEntry (h : Lists c added) (cmd : PolicerCommand)
    (hroom : added.policers.length < maxCP) :
    Lists (c.addPolicerEntry cmd) (TableCall.record added (.addPolicerEntry cmd)) := by
  have hne : ¬ c.policerTableSize = maxCP := h.policers ▸ hroom.ne
  unfold PolicyClassifier.addPolicerEntry TableCall.record
  dsimp only
  rw [if_neg hne, if_neg hne, h.policers]
  refine ⟨h.policies, h.policies_le, by simp, by simp; omega, h.policy, fun i pol hi => ?_,
    fun cmd' hm => ?_⟩
  · dsimp only
    rcases getElem?_concat hi with ⟨hi, hne⟩ | ⟨rfl, rfl⟩
    · rw [Function.update_of_ne hne]
      exact h.policer i pol hi
    · rw [Function.update_self]
      exact ⟨rfl, rfl⟩
  · dsimp only
    by_cases he : cmd'.args.policer.index = cmd.policer.index
    · rw [he, Function.update_self]
    · rw [Function.update_of_ne he]
      exact h.pool cmd' hm

/-! ### Marking -/

theorem PolicerType.index_injective {t t' : PolicerType} (h : t.index = t'.index) : t = t' := by
  cases t <;> cases t' <;> first | rfl | exact absurd h (by decide)

variable {p : IpPacket} {cmd : PolicyCommand} {pol : PolicerCommand} {i j : ℕ}

theorem Lists.matches_iff (h : Lists c added) (hi : added.policies[i]? = some cmd) :
    PolicyClassifier.Matches p.saddr p.daddr (c.policyTable i).sourceNode
      (c.policyTable i).destNode ↔ cmd.Covers p := by
  obtain ⟨hs, hd, _⟩ := h.policy i cmd hi
  rw [hs, hd]
  rfl

theorem Lists.serves_iff (h : Lists c added) (hi : added.policies[i]? = some cmd)
    (hj : added.policers[j]? = some pol) :
    (c.policerTable j).policyIndex = (c.policyTable i).policyIndex ∧
      (c.policerTable j).initialCodePt = (c.policyTable i).codePt ↔ pol.Serves cmd := by
  obtain ⟨_, _, hcode, hidx⟩ := h.policy i cmd hi
  obtain ⟨hidx', hcode'⟩ := h.policer j pol hj
  rw [hcode, hidx, hidx', hcode']
  constructor
  · rintro ⟨ht, hc⟩
    exact ⟨PolicerType.index_injective ht, hc⟩
  · rintro ⟨ht, hc⟩
    exact ⟨by rw [ht], hc⟩

/-- The search of the policies ends at the first one that covers the packet. -/
theorem Lists.getPolicyTableEntry (h : Lists c added)
    (hi : IsFirst (fun cmd => cmd.Covers p) added.policies i cmd) :
    c.getPolicyTableEntry p.saddr p.daddr = (some i, List.range (i + 1)) := by
  have hlt := hi.lt
  refine PolicyClassifier.scan_first (by rw [h.policies]; omega) ?_ fun j hj => ?_
  · exact decide_eq_true ((h.matches_iff hi.get).mpr hi.holds)
  · have hget := List.getElem?_eq_getElem (show j < added.policies.length by omega)
    exact decide_eq_false fun hm => hi.before j hj _ hget ((h.matches_iff hget).mp hm)

theorem Lists.getPolicerTableEntry (h : Lists c added) (hi : added.policies[i]? = some cmd)
    (hj : IsFirst (fun pol => pol.Serves cmd) added.policers j pol) :
    c.getPolicerTableEntry (c.policyTable i).policyIndex (c.policyTable i).codePt =
      (some j, List.range (j + 1)) := by
  have hlt := hj.lt
  refine PolicyClassifier.scan_first (by rw [h.policers]; omega) ?_ fun k hk => ?_
  · exact decide_eq_true ((h.serves_iff hi hj.get).mpr hj.holds)
  · have hget := List.getElem?_eq_getElem (show k < added.policers.length by omega)
    exact decide_eq_false fun hm => hj.before k hk _ hget ((h.serves_iff hi hget).mp hm)

theorem Lists.getPolicerTableEntry_none (h : Lists c added) (hi : added.policies[i]? = some cmd)
    (hno : ∀ pol ∈ added.policers, ¬ pol.Serves cmd) :
    c.getPolicerTableEntry (c.policyTable i).policyIndex (c.policyTable i).codePt =
      (none, List.range c.policerTableSize) := by
  refine PolicyClassifier.scan_none fun k hk => ?_
  have hlt : k < added.policers.length := h.policers ▸ List.mem_range.mp hk
  exact decide_eq_false fun hm => hno _ (List.getElem_mem hlt)
    ((h.serves_iff hi (List.getElem?_eq_getElem hlt)).mp hm)

/-- The state and the code point after a packet has been marked by two entries. -/
def PolicyClassifier.marked (P : Policies σ) (c : PolicyClassifier σ) (i j : ℕ) (p : IpPacket) :
    PolicyClassifier σ × ℤ :=
  let r := P.mark c.pool (c.policyTable i) (c.policerTable j) p
  ({ c with policyTable := Function.update c.policyTable i r.2.1, pool := r.1 }, r.2.2)

theorem Lists.pool_entry (h : Lists c added) (hi : added.policies[i]? = some cmd) :
    c.policyPool (c.policyTable i).policyIndex = true := by
  rw [(h.policy i cmd hi).2.2.2]
  exact h.pool cmd (List.mem_of_getElem? hi)

theorem Lists.mark_eq (h : Lists c added)
    (hi : IsFirst (fun cmd => cmd.Covers p) added.policies i cmd)
    (hj : IsFirst (fun pol => pol.Serves cmd) added.policers j pol) :
    c.mark P p = .ok (c.marked P i j p) := by
  unfold PolicyClassifier.mark
  rw [h.getPolicyTableEntry hi]
  dsimp only
  rw [if_pos (h.pool_entry hi.get), h.getPolicerTableEntry hi.get hj]
  rfl

theorem Lists.mark_null (h : Lists c added)
    (hi : IsFirst (fun cmd => cmd.Covers p) added.policies i cmd)
    (hno : ∀ pol ∈ added.policers, ¬ pol.Serves cmd) :
    c.mark P p = .error .nullPolicer := by
  unfold PolicyClassifier.mark
  rw [h.getPolicyTableEntry hi]
  dsimp only
  rw [if_pos (h.pool_entry hi.get), h.getPolicerTableEntry_none hi.get hno]

/-- Marking changes neither which packets an entry is found for nor which policer it has. -/
theorem Lists.marked (h : Lists c added) (i j : ℕ) (p : IpPacket) :
    Lists (c.marked P i j p).1 added where
  policies := h.policies
  policies_le := h.policies_le
  policers := h.policers
  policers_le := h.policers_le
  policy k cmd hk := by
    unfold PolicyClassifier.marked
    dsimp only
    by_cases hki : k = i
    · subst hki
      rw [Function.update_self, P.sourceNode_mark, P.destNode_mark, P.codePt_mark,
        P.policyIndex_mark]
      exact h.policy k cmd hk
    · rw [Function.update_of_ne hki]
      exact h.policy k cmd hk
  policer := h.policer
  pool := h.pool

theorem Lists.mark_ok (h : Lists c added) (hcov : ∃ cmd ∈ added.policies, cmd.Covers p)
    {r : PolicyClassifier σ × ℤ} (hr : c.mark P p = .ok r) : Lists r.1 added := by
  obtain ⟨i, cmd, hi⟩ := exists_isFirst hcov
  by_cases hs : ∃ pol ∈ added.policers, pol.Serves cmd
  · obtain ⟨j, pol, hj⟩ := exists_isFirst hs
    rw [h.mark_eq hi hj] at hr
    exact Except.ok.inj hr ▸ h.marked i j p
  · rw [h.mark_null hi fun pol hm hserves => hs ⟨pol, hm, hserves⟩] at hr
    exact nomatch hr

theorem fittingTables_invariant :
    (fittingTables P).Invariant fun p => Lists p.1 p.2 where
  init := by
    rintro ⟨c, added⟩ ⟨⟨policyTable, policerTable, pool, rfl⟩, rfl⟩
    exact lists_new
  step := by
    rintro ⟨c, added⟩ x ⟨c', added'⟩ h ⟨_, hf⟩ hstep
    have hs : ((tables P).withHistory ⟨[], []⟩ fun _ x _ added => TableCall.record added x).step
      (c, added) x = .ok (c', added') := hstep
    obtain ⟨hc, ha⟩ := (Machine.withHistory_step_iff _).mp hs
    obtain rfl : added' = x.record added := ha
    cases x with
    | addPolicyEntry cmd => exact Except.ok.inj hc ▸ h.addPolicyEntry cmd
    | addPolicerEntry cmd => exact Except.ok.inj hc ▸ h.addPolicerEntry cmd hf
    | mark p =>
      have hc' : (c.mark P p).map Prod.fst = .ok c' := hc
      cases hm : c.mark P p with
      | error e => rw [hm] at hc'; exact nomatch hc'
      | ok r =>
        rw [hm] at hc'
        exact Except.ok.inj hc' ▸ h.mark_ok hf hm

/-- In every run in which every packet that is marked is covered by a policy and no policer is
added to a full table, the tables list what has been added, an addition that is refused changes
nothing, and a packet is marked by the first policy that covers it with the first policer for
this policy. No other index of a table is looked at, and the error exit is not taken. -/
theorem marked_by_first {q : PolicyClassifier σ × Added} (h : (fittingTables P).Reachable q) :
    Lists q.1 q.2 ∧
      (q.1.policyTableSize = maxPolicies → ∀ cmd, q.1.addPolicyEntry P cmd = q.1) ∧
      ∀ p : IpPacket, (∃ cmd ∈ q.2.policies, cmd.Covers p) →
        q.1.mark P p ≠ .error .exit ∧
        ∃ i cmd, IsFirst (fun cmd => cmd.Covers p) q.2.policies i cmd ∧
          q.1.getPolicyTableEntry p.saddr p.daddr = (some i, List.range (i + 1)) ∧
          (∀ j pol, IsFirst (fun pol => pol.Serves cmd) q.2.policers j pol →
            q.1.getPolicerTableEntry (q.1.policyTable i).policyIndex (q.1.policyTable i).codePt =
              (some j, List.range (j + 1)) ∧ q.1.mark P p = .ok (q.1.marked P i j p)) ∧
          ((∀ pol ∈ q.2.policers, ¬ pol.Serves cmd) →
            q.1.getPolicerTableEntry (q.1.policyTable i).policyIndex (q.1.policyTable i).codePt =
              (none, List.range q.1.policerTableSize)) := by
  have hl := fittingTables_invariant.reachable h
  refine ⟨hl, fun hfull cmd => if_pos hfull, fun p hcov => ?_⟩
  obtain ⟨i, cmd, hi⟩ := exists_isFirst hcov
  refine ⟨?_, i, cmd, hi, hl.getPolicyTableEntry hi, fun j pol hj =>
    ⟨hl.getPolicerTableEntry hi.get hj, hl.mark_eq hi hj⟩, hl.getPolicerTableEntry_none hi.get⟩
  by_cases hs : ∃ pol ∈ q.2.policers, pol.Serves cmd
  · obtain ⟨j, pol, hj⟩ := exists_isFirst hs
    rw [hl.mark_eq hi hj]
    exact nofun
  · rw [hl.mark_null hi fun pol hm hserves => hs ⟨pol, hm, hserves⟩]
    exact nofun

end Runs

/-- The token bucket, and the null policy for all else. -/
def bucketPolicies : Policies Unit where
  create s _ := s
  mark s e f p :=
    if e.policyIndex = PolicerType.tokenBucket.index then
      (s, (TBPolicy.mark e p.toArrival).1, f.codePoint (TBPolicy.mark e p.toArrival).2)
    else (s, e, f.initialCodePt)
  sourceNode_mark s e f p := by
    rw [TBPolicy_mark]
    split_ifs <;> rfl
  destNode_mark s e f p := by
    rw [TBPolicy_mark]
    split_ifs <;> rfl
  codePt_mark s e f p := by
    rw [TBPolicy_mark]
    split_ifs <;> rfl
  policyIndex_mark s e f p := by
    rw [TBPolicy_mark]
    split_ifs <;> rfl

/-- Memory that contains zeros. -/
def zeroPolicy : PolicyTableEntry :=
  ⟨0, 0, 0, .null, .null, 0, 0, 0, 0, 0, 0, 0, 0, 0, 0, 0, 0⟩

def zeroPolicer : PolicerTableEntry := ⟨.null, 0, 0, 0, 0⟩

def zeroClassifier : PolicyClassifier Unit := .new (fun _ => zeroPolicy) (fun _ => zeroPolicer) ()

theorem marked_by_first_bucket : ∃ q, (fittingTables bucketPolicies).Reachable q ∧
    q.1.policyTableSize = 2 ∧
    ∃ i cmd, IsFirst (fun cmd => cmd.Covers ⟨⟨1, 1000⟩, 7, 5⟩) q.2.policies i cmd ∧
      q.1.getPolicyTableEntry 7 5 = (some i, List.range (i + 1)) := by
  have h₀ : (fittingTables bucketPolicies).Reachable (zeroClassifier, ⟨[], []⟩) :=
    .init ⟨⟨_, _, _, rfl⟩, rfl⟩
  obtain ⟨q, hq, hp⟩ := h₀.exists_of_exec [.addPolicyEntry ⟨7, 6, 20, .null⟩,
    .addPolicyEntry ⟨7, anyHost, 10, .tokenBucket 8000 1500⟩,
    .addPolicerEntry ⟨.tokenBucket, 10, 11, none⟩, .mark ⟨⟨1 / 2, 1000⟩, 7, 5⟩]
    (fun q => q.1.policyTableSize = 2 ∧
      ∃ cmd ∈ q.2.policies, cmd.Covers ⟨⟨1, 1000⟩, 7, 5⟩) (by decide +kernel)
  obtain ⟨hsize, hcov⟩ := of_decide_eq_true hp
  obtain ⟨_, i, cmd, hi, hget, _⟩ := (marked_by_first hq).2.2 _ hcov
  exact ⟨q, hq, hsize, i, cmd, hi, hget⟩

/-- Without any policy, a packet is marked by what lies behind the entries; and a policer is
written behind a full table. -/
theorem tables_overrun :
    (∃ c, (tables bucketPolicies).Reachable c ∧ c.policyTableSize = 0 ∧
      c.getPolicyTableEntry 0 0 = (some 0, [0]) ∧
      (c.mark bucketPolicies ⟨⟨1, 1000⟩, 0, 0⟩).map Prod.snd = .ok 0) ∧
    ∃ c, (tables bucketPolicies).Reachable c ∧ c.policerTableSize = maxCP ∧
      (c.addPolicerEntry ⟨.null, 10, 10, none⟩).policerTableSize = maxCP + 1 ∧
      ((c.addPolicerEntry ⟨.null, 10, 10, none⟩).policerTable maxCP).initialCodePt = 10 ∧
      (c.policerTable maxCP).initialCodePt = 0 := by
  have h₀ : (tables bucketPolicies).Reachable zeroClassifier := .init ⟨_, _, _, rfl⟩
  refine ⟨⟨_, h₀, rfl, by decide +kernel, rfl⟩, ?_⟩
  obtain ⟨c, hc, hp⟩ := h₀.exists_of_exec
    (List.replicate maxCP (.addPolicerEntry ⟨.null, 10, 10, none⟩))
    (fun c => c.policerTableSize = maxCP ∧ (c.policerTable maxCP).initialCodePt = 0)
    (by decide +kernel)
  obtain ⟨hsize, hzero⟩ := of_decide_eq_true hp
  refine ⟨c, hc, hsize, congrArg (· + 1) hsize, ?_, hzero⟩
  unfold PolicyClassifier.addPolicerEntry
  rw [hsize]
  dsimp only
  rw [Function.update_self]

end Diffserv

end Ns2XPass
