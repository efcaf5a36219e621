import Mathlib.Data.List.Nodup
import Ns2XPass.Common.Numeric
import Ns2XPass.Diffserv.Markers
import Ns2XPass.Library.LinkedList

/-! # The flow table of the SFD policy

The bytes of each flow are counted in a linked list. An entry that has not been
used for a while is unlinked when the search for another flow comes across it,
and a flow that is not found gets a new entry at the end.
-/

namespace Ns2XPass

namespace Diffserv

/-- `FLOW_TIME_OUT` -/
def flowTimeOut : ℚ := 5

/-- A packet with the policy and the random number by which it is policed. -/
structure FlowPacket extends Arrival where
  flowid : ℤ
  saddr : ℤ
  daddr : ℤ
  cir : ℚ
  policer : PolicerTableEntry
  draw : ℚ

structure FlowEntry where
  fid : ℤ
  srcId : ℤ
  dstId : ℤ
  lastUpdate : ℚ
  bytesSent : ℤ
  count : ℤ

/-- The entries by their addresses, and the list that their links spell out. -/
structure SFDPolicy where
  entries : ℕ → FlowEntry
  next : ℕ → Option ℕ
  head : Option ℕ
  tail : Option ℕ
  allocated : ℕ

inductive SFDFault
  | hang
  | nullPointer

namespace FlowPacket

variable (x : FlowPacket)

def newEntry : FlowEntry where
  fid := x.flowid
  srcId := x.saddr
  dstId := x.daddr
  lastUpdate := x.now
  bytesSent := x.size
  count := 0

def updated (e : FlowEntry) : FlowEntry :=
  { e with lastUpdate := x.now, bytesSent := wrap32 (e.bytesSent + x.size) }

end FlowPacket

namespace SFDPolicy

variable (x : FlowPacket) (s : SFDPolicy)

def setEntry (a : ℕ) (e : FlowEntry) : SFDPolicy :=
  { s with entries := Function.update s.entries a e }

/-- The new entry is always inserted at the tail. -/
def insertTail : SFDPolicy where
  entries := Function.update s.entries s.allocated x.newEntry
  next :=
    match s.tail with
    | some t => Function.update (Function.update s.next s.allocated none) t (some s.allocated)
    | none => Function.update s.next s.allocated none
  head := if s.tail.isSome then s.head else some s.allocated
  tail := some s.allocated
  allocated := s.allocated + 1

/-- The loop of `applyMeter` for `p` and `q`, for at most as many rounds as given. -/
def meterLoop : ℕ → SFDPolicy → Option ℕ → Option ℕ → Except SFDFault SFDPolicy
  | _, s, none, _ => .ok (s.insertTail x)
  | 0, _, some _, _ => .error .hang
  | n + 1, s, some p, q =>
    if (s.entries p).fid = x.flowid then
      .ok (s.setEntry p (x.updated (s.entries p)))
    else if (s.entries p).lastUpdate + flowTimeOut < x.now then
      if s.head = some p then
        if s.tail = some p then meterLoop n { s with head := none, tail := none } none none
        else meterLoop n { s with head := s.next p } (s.next p) (s.next p)
      else
        match q with
        | none => .error .nullPointer
        | some r => meterLoop n { s with
            next := Function.update s.next r (s.next p)
            tail := if s.tail = some p then some r else s.tail } (s.next p) q
    else meterLoop n s (s.next p) (some p)

def applyMeter : Except SFDFault SFDPolicy := meterLoop x s.allocated s s.head s.head

/-- The addresses in the list. -/
def nodes : List ℕ := walk s.next s.allocated s.head

/-- How a packet of a flow is policed, with the entry of the flow. -/
def police (e : FlowEntry) : FlowEntry × Marking :=
  if x.cir < e.bytesSent then
    if x.policer.downgrade2 = 0 then (e, .downgrade1)
    else if x.policer.downgrade2 = 1 then
      if 1 - x.cir / e.bytesSent < x.draw then (e, .initial) else (e, .downgrade1)
    else if e.count = 5 then ({ e with count := 0 }, .initial)
    else ({ e with count := e.count + 1 }, .downgrade1)
  else (e, .initial)

/-- A packet of a flow that is not found gets the initial code point, after a message. The entry
is the one by which the packet was policed. -/
def applyPolicer : SFDPolicy × ℤ × Option FlowEntry :=
  match s.nodes.find? fun a => (s.entries a).fid = x.flowid with
  | some a =>
    (s.setEntry a (police x (s.entries a)).1,
      x.policer.codePoint (police x (s.entries a)).2, some (s.entries a))
  | none => (s, x.policer.initialCodePt, none)

end SFDPolicy

/-! ### The list -/

/-- What an entry says about the use of its flow. -/
structure Usage where
  fid : ℤ
  lastUpdate : ℚ
  bytesSent : ℤ
  deriving DecidableEq

def FlowEntry.usage (e : FlowEntry) : Usage := ⟨e.fid, e.lastUpdate, e.bytesSent⟩

/-- `applyMeter` on the list of entries. -/
def meter (x : FlowPacket) : List Usage → List Usage
  | [] => [⟨x.flowid, x.now, x.size⟩]
  | u :: l =>
    if u.fid = x.flowid then ⟨u.fid, x.now, wrap32 (u.bytesSent + x.size)⟩ :: l
    else if u.lastUpdate + flowTimeOut < x.now then meter x l
    else u :: meter x l

namespace SFDPolicy

variable {x : FlowPacket} {s : SFDPolicy} {as as' done rest : List ℕ}

/-- The links spell out a list, whose last node is the tail. -/
structure Proper (s : SFDPolicy) (as : List ℕ) : Prop where
  links : Segment s.next s.head as none
  tail : s.tail = as.getLast?
  nodup : as.Nodup
  allocated : ∀ a ∈ as, a < s.allocated

def usage (s : SFDPolicy) (a : ℕ) : Usage := (s.entries a).usage

theorem Proper.length_le (h : s.Proper as) : as.length ≤ s.allocated := by
  have hsub : as ⊆ List.range s.allocated := fun a ha => List.mem_range.mpr (h.allocated a ha)
  have hle := (List.subperm_of_subset h.nodup hsub).length_le
  rwa [List.length_range] at hle

theorem Proper.nodes_eq (h : s.Proper as) : s.nodes = as :=
  h.links.walk_eq_of_le h.length_le

/-- The last node of a list that ends in some list is the first of this only if there is no
other. -/
theorem getLast?_eq_iff {a : ℕ} (hd : (done ++ a :: rest).Nodup) :
    (done ++ a :: rest).getLast? = some a ↔ rest = [] := by
  rw [List.getLast?_append_cons]
  cases rest with
  | nil => simp
  | cons b rest =>
    have hna : a ∉ b :: rest := (List.nodup_cons.mp (List.nodup_append.mp hd).2.1).1
    simp only [List.getLast?_cons_cons, reduceCtorEq, iff_false]
    exact fun h => hna (List.mem_of_getLast? h)

theorem Proper.insertTail (h : s.Proper as) :
    (s.insertTail x).Proper (as ++ [s.allocated]) ∧
      (as ++ [s.allocated]).map (s.insertTail x).usage =
        as.map s.usage ++ [⟨x.flowid, x.now, x.size⟩] := by
  have hnew : s.allocated ∉ as := fun hm => lt_irrefl _ (h.allocated _ hm)
  refine ⟨⟨?_, by rw [List.getLast?_concat]; rfl, ?_, ?_⟩, ?_⟩
  · have hold := h.links.update (l := none) hnew
    unfold SFDPolicy.insertTail
    dsimp only
    rcases List.eq_nil_or_concat as with rfl | ⟨bs, b, rfl⟩
    · rw [h.tail]
      exact ⟨rfl, Function.update_self _ _ _⟩
    · rw [h.tail, List.concat_eq_append, List.getLast?_concat]
      rw [List.concat_eq_append] at hold hnew
      have hb : b ∉ bs := by
        have hd := h.nodup
        rw [List.concat_eq_append] at hd
        exact fun hm => (List.nodup_append.mp hd).2.2 b hm b (List.mem_singleton.mpr rfl) rfl
      have hne : s.allocated ≠ b := fun he => hnew (by simp [he])
      rw [segment_append]
      refine ⟨some s.allocated, hold.link hb, rfl, ?_⟩
      dsimp only
      rw [Function.update_of_ne hne, Function.update_self]
      rfl
  · rw [List.nodup_append]
    exact ⟨h.nodup, List.nodup_singleton _, fun a ha b hb he =>
      hnew (List.mem_singleton.mp hb ▸ he ▸ ha)⟩
  · intro a ha
    change a < s.allocated + 1
    rcases List.mem_append.mp ha with ha | ha
    · exact (h.allocated a ha).trans (Nat.lt_succ_self _)
    · rw [List.mem_singleton.mp ha]; exact Nat.lt_succ_self _
  · rw [List.map_append]
    congr 1
    · apply List.map_congr_left
      intro a ha
      have hne : a ≠ s.allocated := fun he => hnew (he ▸ ha)
      simp only [usage, SFDPolicy.insertTail, Function.update_of_ne hne]
    · simp [usage, SFDPolicy.insertTail, FlowPacket.newEntry, FlowEntry.usage]

/-- An entry of the list is changed. -/
theorem Proper.setEntry (h : s.Proper as) (a : ℕ) (e : FlowEntry) :
    (s.setEntry a e).Proper as :=
  ⟨h.links, h.tail, h.nodup, h.allocated⟩

/-- The node that the loop looks at is unlinked. -/
theorem Proper.unlink {q : Option ℕ} {a : ℕ} (h : s.Proper (done ++ a :: rest))
    (hq : done ≠ [] → q = done.getLast?) :
    (done = [] ∧ s.head = some a ∧ s.next a = rest.head? ∧
        (s.tail = some a ↔ rest = []) ∧ ({ s with
          head := rest.head?
          tail := rest.getLast? } : SFDPolicy).Proper rest) ∨
      s.head ≠ some a ∧ s.next a = rest.head? ∧ ∃ r, q = some r ∧
        ({ s with
          next := Function.update s.next r (s.next a)
          tail := if s.tail = some a then some r else s.tail } : SFDPolicy).Proper
            (done ++ rest) := by
  obtain ⟨hlinks, htail, hnd, halloc⟩ := h
  have hlast := getLast?_eq_iff hnd
  obtain ⟨m, hdone, rfl, hrest⟩ := segment_append.mp hlinks
  have hnext := hrest.start_eq_head?
  rcases List.eq_nil_or_concat done with rfl | ⟨ds, d, rfl⟩
  · left
    refine ⟨rfl, hdone, hnext, by rw [htail]; exact hlast, ?_, rfl,
      (List.nodup_cons.mp hnd).2, fun b hb => halloc b (List.mem_cons_of_mem a hb)⟩
    exact hnext ▸ hrest
  · right
    rw [List.concat_eq_append] at hnd hlinks hq hlast htail halloc ⊢
    have hqd : q = some d := by
      rw [hq (by simp), List.getLast?_concat]
    refine ⟨?_, hnext, d, hqd, ?_, ?_, ?_, ?_⟩
    · rw [hlinks.start_eq_head?]
      cases ds with
      | nil =>
        rintro ⟨⟩
        simp at hnd
      | cons c ds =>
        rintro ⟨⟩
        simp at hnd
    · have hu : Segment (Function.update s.next d (s.next a)) s.head (ds ++ d :: rest) none :=
        Segment.unlink (by simpa using hlinks) (by simpa using hnd)
      simpa using hu
    · dsimp only
      rw [htail]
      by_cases hr : rest = []
      · rw [if_pos (hlast.mpr hr), hr, List.append_nil, List.getLast?_concat]
      · rw [if_neg fun he => hr (hlast.mp he)]
        obtain ⟨b, rest, rfl⟩ := List.exists_cons_of_ne_nil hr
        rw [List.getLast?_append_cons, List.getLast?_append_cons, List.getLast?_cons_cons]
    · exact hnd.sublist ((List.sublist_cons_self a rest).append_left _)
    · intro b hb
      exact halloc b (((List.sublist_cons_self a rest).append_left _).subset hb)

/-- The loop does what `meter` does with the entries that it has not passed. -/
theorem meterLoop_refines {n : ℕ} (done : List ℕ) (q : Option ℕ) (h : s.Proper (done ++ rest))
    (hq : done ≠ [] → q = done.getLast?) (hn : rest.length ≤ n) :
    ∃ s' as', meterLoop x n s rest.head? q = .ok s' ∧ s'.Proper as' ∧
      as'.map s'.usage = done.map s.usage ++ meter x (rest.map s.usage) := by
  induction rest generalizing s done n q with
  | nil =>
    rw [List.append_nil] at h
    obtain ⟨hp, hu⟩ := h.insertTail (x := x)
    exact ⟨_, _, by unfold meterLoop; rfl, hp, hu⟩
  | cons a rest ih =>
    obtain ⟨n, rfl⟩ : ∃ k, n = k + 1 := ⟨n - 1, by simp only [List.length_cons] at hn; omega⟩
    have hn' : rest.length ≤ n := by simpa using hn
    have husage : (s.usage a).fid = (s.entries a).fid ∧
        (s.usage a).lastUpdate = (s.entries a).lastUpdate := ⟨rfl, rfl⟩
    rw [List.head?_cons, List.map_cons, meter, husage.1, husage.2]
    unfold meterLoop
    split
    · -- the flow is found
      refine ⟨_, _, rfl, h.setEntry _ _, ?_⟩
      have hnot : a ∉ done ++ rest := by
        have hd := h.nodup
        rw [List.nodup_middle] at hd
        exact (List.nodup_cons.mp hd).1
      have hsame : ∀ b ∈ done ++ rest,
          (s.setEntry a (x.updated (s.entries a))).usage b = s.usage b := fun b hb => by
        simp only [usage, setEntry, Function.update_of_ne (ne_of_mem_of_not_mem hb hnot)]
      rw [List.map_append, List.map_cons,
        List.map_congr_left fun b hb => hsame b (List.mem_append_left _ hb),
        List.map_congr_left fun b hb => hsame b (List.mem_append_right _ hb)]
      simp [usage, setEntry, FlowPacket.updated, FlowEntry.usage]
    split
    · -- the entry has expired
      rcases h.unlink hq with ⟨rfl, hhead, hnext, htail, hp⟩ |
        ⟨hhead, hnext, r, rfl, hp⟩
      · rw [if_pos hhead]
        obtain ⟨s', as', hs', hp', hu'⟩ := ih [] rest.head? hp
          (fun hne => absurd rfl hne) hn'
        refine ⟨s', as', ?_, hp', hu'⟩
        split
        · next ht =>
          obtain rfl := htail.mp ht
          exact hs'
        · next ht =>
          have hne : rest ≠ [] := fun hr => ht (htail.mpr hr)
          obtain ⟨b, rest, rfl⟩ := List.exists_cons_of_ne_nil hne
          have ht' : s.tail = (b :: rest).getLast? := by
            rw [h.tail, List.nil_append, List.getLast?_cons_cons]
          rw [hnext, ht']
          rw [← hs', ← ht']
      · rw [if_neg hhead, hnext]
        rw [hnext] at hp
        exact ih done (some r) hp hq hn'
    · -- the entry is passed
      have hnext : s.next a = rest.head? := by
        obtain ⟨m, _, rfl, hrest⟩ := segment_append.mp h.links
        exact hrest.start_eq_head?
      rw [hnext]
      have hassoc : done ++ a :: rest = (done ++ [a]) ++ rest := by simp
      obtain ⟨s', as', hs', hp', hu'⟩ := ih (done ++ [a]) (some a) (hassoc ▸ h)
        (fun _ => by rw [List.getLast?_concat]) hn'
      exact ⟨s', as', hs', hp', by rw [hu']; simp⟩

theorem Proper.applyMeter (h : s.Proper as) :
    ∃ s' as', s.applyMeter x = .ok s' ∧ s'.Proper as' ∧
      as'.map s'.usage = meter x (as.map s.usage) := by
  unfold SFDPolicy.applyMeter
  have hhead : s.head = as.head? := h.links.start_eq_head?
  obtain ⟨s', as', hs', hp', hu'⟩ := meterLoop_refines [] s.head h
    (fun hne => absurd rfl hne) h.length_le
  exact ⟨s', as', by rw [← hs', hhead], hp', by simpa using hu'⟩

end SFDPolicy

end Diffserv

end Ns2XPass
