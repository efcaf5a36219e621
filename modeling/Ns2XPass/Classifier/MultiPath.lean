import Mathlib.Data.BitVec
import Mathlib.Data.List.GetD
import Ns2XPass.Common.Packet
import Ns2XPass.Library.Machine
import Ns2XPass.Library.Probe
import Ns2XPass.Library.Qsort

/-! # The multipath forwarder

`installNext` puts a next hop behind the last slot in use, `clear` empties a
slot. `classify` goes round the slots, or, in symmetric mode, sorts them and
starts from a hash of the flow.
-/

namespace Ns2XPass

/-- The address of an object, zero for none. -/
abbrev NsObject := BitVec 64

/-- The bound variables, and what `srand` and `rand`, and `qsort`, do. -/
structure MultiPathConfig where
  symmetric : Bool
  nodetype : BitVec 32
  shift : ℕ
  mask : BitVec 32
  rand : BitVec 32 → BitVec 32
  qsort : (NsObject → NsObject → ℤ) → List NsObject → List NsObject

/-- `slots` and `sortedSlots` stand for `maxslot_ + 1` and `sorted_maxslot_ + 1`. -/
structure MultiPathForwarder where
  slot : ℕ → NsObject := fun _ => 0
  slots : ℕ := 0
  ns : ℕ := 0
  sortedSlots : ℕ := 0

inductive ClassifierFault | moduloZero | endlessLoop
  deriving DecidableEq, Repr

namespace MultiPathForwarder

/-- The comparison of `qsort`, of the low words. -/
def slotcmp (a b : NsObject) : ℤ := (a.setWidth 32 - b.setWidth 32).toInt

def installNext (node : NsObject) (c : MultiPathForwarder) : MultiPathForwarder :=
  { c with slot := Function.update c.slot c.slots node, slots := c.slots + 1 }

/-- The loop of `clear`. -/
def shrink (slot : ℕ → NsObject) : ℕ → ℕ
  | 0 => 0
  | n + 1 => if slot n = 0 then shrink slot n else n + 1

def clear (k : ℕ) (c : MultiPathForwarder) : MultiPathForwarder :=
  let slot := Function.update c.slot k 0
  { c with slot, slots := if k + 1 = c.slots then shrink slot k else c.slots }

/-- The slots in use. -/
def table (c : MultiPathForwarder) : List NsObject := (List.range c.slots).map c.slot

def sort (cfg : MultiPathConfig) (c : MultiPathForwarder) : MultiPathForwarder :=
  let table := cfg.qsort slotcmp c.table
  { c with
    slot := fun i => if i < c.slots then table.getD i 0 else c.slot i
    sortedSlots := c.slots }

def mshift (cfg : MultiPathConfig) (val : BitVec 32) : BitVec 32 :=
  val.sshiftRight cfg.shift &&& cfg.mask

def hashString (cfg : MultiPathConfig) (ints : List (BitVec 32)) : BitVec 32 :=
  cfg.rand (ints.foldl (fun result int => result ^^^ cfg.rand int) 0)

/-- The fields of `hkey`. -/
def hkey (cfg : MultiPathConfig) (p : IpHeader) : List (BitVec 32) :=
  let src := mshift cfg p.saddr
  let dst := mshift cfg p.daddr
  [p.flowid, cfg.nodetype, if src.slt dst then src else dst, if dst.slt src then src else dst]

def free (c : MultiPathForwarder) (i : ℕ) : Bool := c.slot i = 0

def sortIfDue (cfg : MultiPathConfig) (c : MultiPathForwarder) : MultiPathForwarder :=
  if c.sortedSlots = 0 ∨ c.sortedSlots < c.slots then c.sort cfg else c

/-- `cl`, with the state after the call. -/
def classify (cfg : MultiPathConfig) (p : IpHeader) (c : MultiPathForwarder) :
    Except ClassifierFault (ℕ × MultiPathForwarder) :=
  if c.slots = 0 then .error .moduloZero
  else if cfg.symmetric then
    let c := c.sortIfDue cfg
    let ms := (hashString cfg (hkey cfg p)).toNat % c.slots
    match probe c.free c.slots ms (c.slots + 1) ms with
    | none => .error .endlessLoop
    | some (cl, _) => .ok (cl, c)
  else
    match probe c.free c.slots c.ns (c.slots + 1) c.ns with
    | none => .error .endlessLoop
    | some (cl, ns) => .ok (cl, { c with ns })

/-! ## The objects in the slots -/

variable {c : MultiPathForwarder} {cfg : MultiPathConfig} {k n : ℕ} {node : NsObject}
  {slot : ℕ → NsObject}

/-- The objects that are installed, each as often as it is. -/
def installed (c : MultiPathForwarder) : Multiset NsObject := (c.table.filter (· ≠ 0) : List NsObject)

/-- The slots behind the last one in use are empty. -/
def TailFree (c : MultiPathForwarder) : Prop := ∀ i, c.slots ≤ i → c.slot i = 0

theorem mem_installed : node ∈ c.installed ↔ node ≠ 0 ∧ ∃ i < c.slots, c.slot i = node := by
  simp [installed, table, and_comm]

theorem length_table : c.table.length = c.slots := by simp [table]

theorem shrink_le (slot : ℕ → NsObject) (n : ℕ) : shrink slot n ≤ n := by
  induction n with
  | zero => exact le_rfl
  | succ n ih =>
    rw [shrink]
    split_ifs
    · exact ih.trans n.le_succ
    · exact le_rfl

theorem eq_zero_of_shrink_le {i : ℕ} (h : shrink slot n ≤ i) (hi : i < n) : slot i = 0 := by
  induction n with
  | zero => cases hi
  | succ n ih =>
    rw [shrink] at h
    split_ifs at h with hn
    · rcases Nat.lt_succ_iff_lt_or_eq.mp hi with hlt | rfl
      · exact ih h hlt
      · exact hn
    · exact absurd hi h.not_gt

/-- Only empty slots are given up. -/
theorem filter_shrink (slot : ℕ → NsObject) (n : ℕ) :
    ((List.range (shrink slot n)).map slot).filter (· ≠ 0) =
      ((List.range n).map slot).filter (· ≠ 0) := by
  induction n with
  | zero => rfl
  | succ n ih =>
    rw [shrink]
    split_ifs with hn
    · rw [ih, List.range_succ, List.map_append, List.filter_append]
      simp [hn]
    · rfl

theorem table_installNext : (c.installNext node).table = c.table ++ [node] := by
  rw [table, table, installNext, List.range_succ, List.map_append]
  congr 1
  · refine List.map_congr_left fun i hi => Function.update_of_ne ?_ ..
    exact (List.mem_range.mp hi).ne
  · simp

theorem filter_cons_of_ne (h : node ≠ 0) (l : List NsObject) :
    (node :: l).filter (· ≠ 0) = node :: l.filter (· ≠ 0) :=
  List.filter_cons_of_pos (by simpa using h)

theorem filter_cons_zero (l : List NsObject) :
    ((0 : NsObject) :: l).filter (· ≠ 0) = l.filter (· ≠ 0) :=
  List.filter_cons_of_neg (by simp)

theorem installed_installNext (h : node ≠ 0) :
    (c.installNext node).installed = node ::ₘ c.installed := by
  rw [installed, table_installNext, List.filter_append, filter_cons_of_ne h, installed]
  exact Multiset.coe_eq_coe.mpr List.perm_append_comm

theorem map_update (c : MultiPathForwarder) (k : ℕ) :
    (List.range c.slots).map (Function.update c.slot k 0) = c.table.set k 0 := by
  refine List.ext_getElem (by simp [table]) fun i hi hi' => ?_
  rw [List.getElem_set, List.getElem_map, List.getElem_range, Function.update_apply]
  simp [table, eq_comm]

theorem installed_clear (c : MultiPathForwarder) (k : ℕ) :
    (c.clear k).installed = ((c.table.set k 0).filter (· ≠ 0) : List NsObject) := by
  rw [← map_update, installed, table, clear]
  split_ifs with hk
  · rw [filter_shrink, ← hk, List.range_succ, List.map_append, List.filter_append]
    simp
  · rfl

/-- Clearing a slot takes its object out. -/
theorem installed_of_clear (hk : k < c.slots) (h : c.slot k ≠ 0) :
    c.installed = c.slot k ::ₘ (c.clear k).installed := by
  have hlen : k < c.table.length := length_table.symm ▸ hk
  have hget : c.table[k] = c.slot k := by simp [table]
  have hsplit : c.table = c.table.take k ++ c.slot k :: c.table.drop (k + 1) := by
    rw [← hget, ← List.drop_eq_getElem_cons hlen, List.take_append_drop]
  have hset : c.table.set k 0 = c.table.take k ++ 0 :: c.table.drop (k + 1) := by
    rw [List.set_eq_take_append_cons_drop, if_pos hlen]
  rw [installed_clear, hset, List.filter_append, filter_cons_zero, ← List.filter_append,
    Multiset.cons_coe, ← filter_cons_of_ne h]
  refine Multiset.coe_eq_coe.mpr (List.Perm.filter _ ?_)
  exact (List.Perm.of_eq hsplit).trans List.perm_middle

theorem exists_occupied (h : c.installed ≠ 0) : ∃ i < c.slots, c.slot i ≠ 0 := by
  obtain ⟨node, hn⟩ := Multiset.exists_mem_of_ne_zero h
  obtain ⟨hne, i, hi, rfl⟩ := mem_installed.mp hn
  exact ⟨i, hi, hne⟩

theorem TailFree.mem_installed {i : ℕ} (ht : c.TailFree) (h : c.slot i ≠ 0) :
    c.slot i ∈ c.installed :=
  MultiPathForwarder.mem_installed.mpr ⟨h, i, not_le.mp fun hi => h (ht i hi), rfl⟩

theorem TailFree.installNext (ht : c.TailFree) (node : NsObject) :
    (c.installNext node).TailFree := fun i hi => by
  have hne : i ≠ c.slots := (Nat.lt_of_succ_le hi).ne'
  exact (Function.update_of_ne hne ..).trans (ht i (Nat.le_of_succ_le hi))

theorem TailFree.clear (ht : c.TailFree) (k : ℕ) : (c.clear k).TailFree := by
  intro i hi
  change Function.update c.slot k 0 i = 0
  by_cases hik : i = k
  · rw [hik, Function.update_self]
  · rw [Function.update_of_ne hik]
    change (if k + 1 = c.slots then _ else _) ≤ i at hi
    split_ifs at hi with hk
    · rcases Nat.lt_or_ge i k with hlt | hge
      · have hz := eq_zero_of_shrink_le hi hlt
        rwa [Function.update_of_ne hik] at hz
      · exact ht i (by omega)
    · exact ht i hi

section Sorting

variable (hq : ∀ cmp l, (cfg.qsort cmp l).Perm l)

include hq

theorem table_sort : (c.sort cfg).table = cfg.qsort slotcmp c.table := by
  have hlen : (cfg.qsort slotcmp c.table).length = c.slots :=
    (hq slotcmp c.table).length_eq.trans length_table
  refine List.ext_getElem (by rw [length_table, hlen]; rfl) fun i hi hi' => ?_
  have hget : (c.sort cfg).table[i] = (c.sort cfg).slot i := by simp [table]
  rw [hget]
  exact (if_pos (hlen ▸ hi')).trans (List.getD_eq_getElem _ _ hi')

theorem installed_sort : (c.sort cfg).installed = c.installed := by
  rw [installed, table_sort hq, installed]
  exact Multiset.coe_eq_coe.mpr ((hq slotcmp c.table).filter _)

theorem installed_sortIfDue : (c.sortIfDue cfg).installed = c.installed := by
  rw [sortIfDue]
  split_ifs
  · exact installed_sort hq
  · rfl

end Sorting

theorem slots_sortIfDue (cfg : MultiPathConfig) (c : MultiPathForwarder) :
    (c.sortIfDue cfg).slots = c.slots := by
  rw [sortIfDue]
  split_ifs <;> rfl

theorem TailFree.sortIfDue (ht : c.TailFree) (cfg : MultiPathConfig) :
    (c.sortIfDue cfg).TailFree := by
  rw [MultiPathForwarder.sortIfDue]
  split_ifs
  · intro i hi
    exact (if_neg hi.not_gt).trans (ht i hi)
  · exact ht

/-! ## What `classify` finds -/

/-- What a call of `classify` leaves as it was. -/
structure SameObjects (c c' : MultiPathForwarder) : Prop where
  tailFree : c'.TailFree
  slots : c'.slots = c.slots
  installed : c'.installed = c.installed

theorem classify_symmetric (hsym : cfg.symmetric = true) (hs : c.slots ≠ 0) (p : IpHeader) :
    classify cfg p c = match probe (c.sortIfDue cfg).free (c.sortIfDue cfg).slots
        ((hashString cfg (hkey cfg p)).toNat % (c.sortIfDue cfg).slots)
        ((c.sortIfDue cfg).slots + 1)
        ((hashString cfg (hkey cfg p)).toNat % (c.sortIfDue cfg).slots) with
      | none => .error .endlessLoop
      | some (cl, _) => .ok (cl, c.sortIfDue cfg) := by
  rw [classify, if_neg hs, if_pos hsym]

theorem classify_asymmetric (hsym : cfg.symmetric = false) (hs : c.slots ≠ 0) (p : IpHeader) :
    classify cfg p c = match probe c.free c.slots c.ns (c.slots + 1) c.ns with
      | none => .error .endlessLoop
      | some (cl, ns) => .ok (cl, { c with ns }) := by
  rw [classify, if_neg hs, if_neg (by simp [hsym])]

theorem SameObjects.of_classify (hq : ∀ cmp l, (cfg.qsort cmp l).Perm l) (ht : c.TailFree)
    {p : IpHeader} {cl : ℕ} {c' : MultiPathForwarder} (h : classify cfg p c = .ok (cl, c')) :
    SameObjects c c' := by
  have hs : c.slots ≠ 0 := fun hs => by simp [classify, hs] at h
  cases hsym : cfg.symmetric with
  | true =>
    rw [classify_symmetric hsym hs] at h
    split at h
    · cases h
    · cases h
      exact ⟨ht.sortIfDue cfg, slots_sortIfDue cfg c, installed_sortIfDue hq⟩
  | false =>
    rw [classify_asymmetric hsym hs] at h
    split at h
    · cases h
    · cases h
      exact ⟨ht, rfl, rfl⟩

/-- A probe finds an occupied slot, when there is one, also from a cursor beyond the last slot. -/
theorem probe_occupied (ht : c.TailFree) (ho : c.installed ≠ 0) (ms : ℕ) :
    ∃ cl next, probe c.free c.slots ms (c.slots + 1) ms = some (cl, next) ∧
      cl < c.slots ∧ next < c.slots ∧ c.slot cl ≠ 0 := by
  obtain ⟨i, hi, hne⟩ := exists_occupied ho
  have hfree : c.free i = false := decide_eq_false hne
  rcases Nat.lt_or_ge ms c.slots with hlt | hge
  · obtain ⟨cl, next, hp, hcl, hnext, hf⟩ :=
      probe_of_occupied hlt (.inl rfl) hi hfree (Nat.le_succ _)
    exact ⟨cl, next, hp, hcl, hnext, of_decide_eq_false hf⟩
  · have hn : 0 < c.slots := Nat.zero_lt_of_lt hi
    rw [probe_enter hge hn (decide_eq_true (ht ms hge))]
    obtain ⟨cl, next, hp, hcl, hnext, hf⟩ :=
      probe_of_occupied (Nat.mod_lt _ hn) (.inr hge) hi hfree le_rfl
    exact ⟨cl, next, hp, hcl, hnext, of_decide_eq_false hf⟩

/-- While an object is installed, `classify` finds one. -/
theorem classify_of_installed (hq : ∀ cmp l, (cfg.qsort cmp l).Perm l) (ht : c.TailFree)
    (ho : c.installed ≠ 0) (p : IpHeader) :
    ∃ cl c', classify cfg p c = .ok (cl, c') ∧ c'.slot cl ∈ c.installed := by
  have hs : c.slots ≠ 0 := by
    obtain ⟨i, hi, -⟩ := exists_occupied ho
    omega
  cases hsym : cfg.symmetric with
  | true =>
    obtain ⟨cl, next, hp, -, -, hne⟩ := probe_occupied (ht.sortIfDue cfg)
      (by rwa [installed_sortIfDue hq])
      ((hashString cfg (hkey cfg p)).toNat % (c.sortIfDue cfg).slots)
    refine ⟨cl, c.sortIfDue cfg, by rw [classify_symmetric hsym hs, hp], ?_⟩
    rw [← installed_sortIfDue hq]
    exact (ht.sortIfDue cfg).mem_installed hne
  | false =>
    obtain ⟨cl, next, hp, -, -, hne⟩ := probe_occupied ht ho c.ns
    exact ⟨cl, { c with ns := next }, by rw [classify_asymmetric hsym hs, hp],
      ht.mem_installed hne⟩

end MultiPathForwarder

/-! ## Runs -/

inductive ForwarderCall
  | installNext (node : NsObject)
  | clear (slot : ℕ)
  | classify (p : IpHeader)
  deriving DecidableEq

/-- Objects are not null, and slot numbers fit an `int`. -/
def ForwarderCall.Enabled (c : MultiPathForwarder) : ForwarderCall → Prop
  | installNext node => node ≠ 0 ∧ c.slots + 1 < 2 ^ 31
  | _ => True

def ForwarderCall.step (cfg : MultiPathConfig) (c : MultiPathForwarder) :
    ForwarderCall → Except ClassifierFault MultiPathForwarder
  | installNext node => .ok (c.installNext node)
  | clear slot => .ok (c.clear slot)
  | classify p => (c.classify cfg p).map Prod.snd

def forwarderMachine (cfg : MultiPathConfig) :
    Machine MultiPathForwarder ForwarderCall ClassifierFault where
  Init c := c = {}
  Enabled c x := x.Enabled c
  step c x := x.step cfg c

theorem slots_clear_le (c : MultiPathForwarder) (slot : ℕ) : (c.clear slot).slots ≤ c.slots := by
  change (if slot + 1 = c.slots then _ else _) ≤ _
  split_ifs with h
  · exact (MultiPathForwarder.shrink_le _ slot).trans (h ▸ slot.le_succ)
  · exact le_rfl

theorem forwarder_invariant {cfg : MultiPathConfig} (hq : ∀ cmp l, (cfg.qsort cmp l).Perm l) :
    (forwarderMachine cfg).Invariant fun c => c.TailFree ∧ c.slots < 2 ^ 31 where
  init c hc := by
    rw [hc]
    exact ⟨fun _ _ => rfl, by decide⟩
  step c x c' h he hs := by
    obtain ⟨ht, hlt⟩ := h
    cases x with
    | installNext node => exact Except.ok.inj hs ▸ ⟨ht.installNext node, he.2⟩
    | clear slot =>
      exact Except.ok.inj hs ▸ ⟨ht.clear slot, (slots_clear_le c slot).trans_lt hlt⟩
    | classify p =>
      change (c.classify cfg p).map Prod.snd = _ at hs
      cases hc : c.classify cfg p with
      | error e => rw [hc] at hs; cases hs
      | ok y =>
        rw [hc] at hs
        have hsame := MultiPathForwarder.SameObjects.of_classify hq ht hc
        exact Except.ok.inj hs ▸ ⟨hsame.tailFree, hsame.slots ▸ hlt⟩

instance (cfg : MultiPathConfig) (c : MultiPathForwarder) :
    ∀ x, Decidable ((forwarderMachine cfg).Enabled c x)
  | .installNext node => inferInstanceAs (Decidable (node ≠ 0 ∧ c.slots + 1 < 2 ^ 31))
  | .clear _ => .isTrue trivial
  | .classify _ => .isTrue trivial

/-- Symmetric mode, with a `rand` that returns the seed. -/
def seedConfig : MultiPathConfig :=
  { symmetric := true, nodetype := 0, shift := 0, mask := BitVec.allOnes 32, rand := id,
    qsort := sortByInsertion }

end Ns2XPass
