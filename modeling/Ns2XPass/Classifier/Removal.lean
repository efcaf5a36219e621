import Ns2XPass.Classifier.MultiPath

/-! # Removing next hops

Callers remember the slot in which an object was installed and clear it later.
Round robin leaves the objects in their slots, so that exactly the installed
ones are selected. The sort of the symmetric mode moves them.
-/

namespace Ns2XPass

namespace MultiPathForwarder

variable {c c' : MultiPathForwarder} {cfg : MultiPathConfig} {node : NsObject} {k : ℕ}

/-- A call of `classify`, now or after others, selects the object for some packets and some values
of `rand`. -/
inductive Selectable (cfg : MultiPathConfig) (node : NsObject) : MultiPathForwarder → Prop
  | now (rand : BitVec 32 → BitVec 32) {p cl c c'} :
      classify { cfg with rand } p c = .ok (cl, c') → c'.slot cl = node →
      node ≠ 0 → Selectable cfg node c
  | later (rand : BitVec 32 → BitVec 32) {p cl c c'} : classify { cfg with rand } p c = .ok (cl, c') →
      Selectable cfg node c' → Selectable cfg node c

theorem Selectable.mem_installed (hq : ∀ cmp l, (cfg.qsort cmp l).Perm l)
    (h : Selectable cfg node c) (ht : c.TailFree) : node ∈ c.installed := by
  induction h with
  | @now rand p cl c c' hc hn hne =>
    have hsame := SameObjects.of_classify (by exact hq) ht hc
    rw [← hsame.installed, ← hn]
    exact hsame.tailFree.mem_installed (hn ▸ hne)
  | @later rand p cl c c' hc _ ih =>
    have hsame := SameObjects.of_classify (by exact hq) ht hc
    exact hsame.installed ▸ ih hsame.tailFree

theorem slot_of_classify {p : IpHeader} {cl : ℕ} (hsym : cfg.symmetric = false)
    (h : classify cfg p c = .ok (cl, c')) : c'.slot = c.slot := by
  have hs : c.slots ≠ 0 := fun hs => by simp [classify, hs] at h
  rw [classify_asymmetric hsym hs] at h
  split at h
  · cases h
  · cases h
    rfl

/-- Round robin comes to every object. -/
theorem selectable_of_ahead (hsym : cfg.symmetric = false) (hne : node ≠ 0) (d : ℕ)
    (c : MultiPathForwarder) (hns : c.ns < c.slots) (hd : d < c.slots)
    (hn : c.slot ((c.ns + d) % c.slots) = node) : Selectable cfg node c := by
  induction d using Nat.strong_induction_on generalizing c with
  | _ d ih =>
    have hfree : c.free ((c.ns + d) % c.slots) = false := decide_eq_false (hn ▸ hne)
    obtain ⟨k, hk, hkf, hp⟩ := probe_found hns (.inl rfl) hd hfree (Nat.le_succ _)
    have hpos : 0 < c.slots := Nat.zero_lt_of_lt hns
    have hc : ∀ p, classify cfg p c =
        .ok ((c.ns + k) % c.slots, { c with ns := (c.ns + (k + 1)) % c.slots }) := fun p => by
      rw [classify_asymmetric hsym hpos.ne', hp]
    rcases hk.lt_or_eq with hlt | rfl
    · refine .later cfg.rand (hc ⟨0, 0, 0⟩) (ih (d - (k + 1)) (by omega) _
        (Nat.mod_lt _ hpos) ?_ ?_)
      · change d - (k + 1) < c.slots
        omega
      · change c.slot (((c.ns + (k + 1)) % c.slots + (d - (k + 1))) % c.slots) = node
        rw [Nat.mod_add_mod, add_assoc, Nat.add_sub_cancel' (by omega), hn]
    · exact .now cfg.rand (hc ⟨0, 0, 0⟩) hn hne

/-- The hash leads to an occupied slot at once. -/
theorem classify_of_hash (cfg : MultiPathConfig) (p : IpHeader) {i : ℕ}
    (hsym : cfg.symmetric = true) (hs : c.slots ≠ 0)
    (hi : (hashString cfg (hkey cfg p)).toNat % (c.sortIfDue cfg).slots = i)
    (hfree : (c.sortIfDue cfg).free i = false) :
    classify cfg p c = .ok (i, c.sortIfDue cfg) := by
  rw [classify_symmetric hsym hs, hi, probe_succ, if_neg (by simp [hfree])]

theorem selectable_of_installed (hq : ∀ cmp l, (cfg.qsort cmp l).Perm l) (ht : c.TailFree)
    (hs : c.slots < 2 ^ 32) (h : node ∈ c.installed) : Selectable cfg node c := by
  cases hsym : cfg.symmetric with
  | true =>
    rw [← installed_sortIfDue hq] at h
    obtain ⟨hne, i, hi, hn⟩ := MultiPathForwarder.mem_installed.mp h
    have hslots : c.slots ≠ 0 := by rw [← slots_sortIfDue cfg]; omega
    have hfree : (c.sortIfDue cfg).free i = false := decide_eq_false (hn ▸ hne)
    have hlt : i < 2 ^ 32 := (slots_sortIfDue cfg c ▸ hi).trans hs
    -- `rand` may take the hash to the slot of the object
    have hhash : (BitVec.ofNat 32 i).toNat % (c.sortIfDue cfg).slots = i := by
      rw [BitVec.toNat_ofNat, Nat.mod_eq_of_lt hlt, Nat.mod_eq_of_lt hi]
    have hc := classify_of_hash { cfg with rand := fun _ => BitVec.ofNat 32 i } ⟨0, 0, 0⟩
      hsym hslots hhash hfree
    exact .now _ hc hn hne
  | false =>
    obtain ⟨hne, i, hi, hn⟩ := MultiPathForwarder.mem_installed.mp h
    have ho : c.installed ≠ 0 := fun hz => Multiset.notMem_zero _ (hz ▸ h)
    obtain ⟨cl, next, hp, -, hnext, -⟩ := probe_occupied ht ho c.ns
    have hc : classify cfg ⟨0, 0, 0⟩ c = .ok (cl, { c with ns := next }) := by
      rw [classify_asymmetric hsym (Nat.zero_lt_of_lt hi).ne', hp]
    obtain ⟨d, hd, hdi⟩ := exists_ahead hnext hi
    exact .later cfg.rand hc (selectable_of_ahead hsym hne d _ hnext hd (hdi ▸ hn))

theorem selectable_iff (hq : ∀ cmp l, (cfg.qsort cmp l).Perm l) (ht : c.TailFree)
    (hs : c.slots < 2 ^ 32) : Selectable cfg node c ↔ node ∈ c.installed :=
  ⟨fun h => h.mem_installed hq ht, selectable_of_installed hq ht hs⟩

end MultiPathForwarder

open MultiPathForwarder

/-- The objects installed and not cleared, with the slots that `installNext` returned for them. -/
abbrev Routes := List (ℕ × NsObject)

def ForwarderCall.record (c : MultiPathForwarder) (x : ForwarderCall) (_ : MultiPathForwarder)
    (routes : Routes) : Routes :=
  match x with
  | installNext node => (c.slots, node) :: routes
  | clear slot => routes.filter (·.1 ≠ slot)
  | classify _ => routes

def routeMachine (cfg : MultiPathConfig) :
    Machine (MultiPathForwarder × Routes) ForwarderCall ClassifierFault :=
  (forwarderMachine cfg).withHistory [] ForwarderCall.record

/-- Only slots that have been returned, and not been cleared since, are cleared. -/
def Returned (r : MultiPathForwarder × Routes) (x : ForwarderCall) : Prop :=
  ∀ slot, x = .clear slot → ∃ node, (slot, node) ∈ r.2

/-- The slot that is cleared holds the one object that was installed there. -/
def InPlace (r : MultiPathForwarder × Routes) (x : ForwarderCall) : Prop :=
  ∀ slot, x = .clear slot → r.2.filter (·.1 = slot) = [(slot, r.1.slot slot)]

section Runs

variable {cfg : MultiPathConfig} {c c' : MultiPathForwarder} {routes : Routes} {slot : ℕ}
  {node : NsObject}

/-- Each object is in the slot in which it was installed. -/
def Placed (c : MultiPathForwarder) (routes : Routes) : Prop :=
  ∀ slot, routes.filter (·.1 = slot) = if c.slot slot = 0 then [] else [(slot, c.slot slot)]

/-- The table holds the routes. -/
structure HoldsRoutes (cfg : MultiPathConfig) (c : MultiPathForwarder) (routes : Routes) :
    Prop where
  tailFree : c.TailFree
  slots : c.slots < 2 ^ 31
  installed : c.installed = (routes.map Prod.snd : Multiset NsObject)
  placed : cfg.symmetric = false → Placed c routes

theorem Placed.inPlace (h : Placed c routes) (hm : (slot, node) ∈ routes) :
    routes.filter (·.1 = slot) = [(slot, c.slot slot)] := by
  have hf : (slot, node) ∈ routes.filter (·.1 = slot) :=
    List.mem_filter.mpr ⟨hm, decide_eq_true rfl⟩
  rw [h slot] at hf ⊢
  split_ifs at hf ⊢
  · cases hf
  · rfl

theorem HoldsRoutes.installNext (h : HoldsRoutes cfg c routes) (hne : node ≠ 0)
    (hs : c.slots + 1 < 2 ^ 31) :
    HoldsRoutes cfg (c.installNext node) ((c.slots, node) :: routes) := by
  refine ⟨h.tailFree.installNext node, hs, ?_, fun hsym slot => ?_⟩
  · rw [installed_installNext hne, h.installed]
    rfl
  · have hp := h.placed hsym slot
    change List.filter _ _ = if Function.update c.slot c.slots node slot = 0 then []
      else [(slot, Function.update c.slot c.slots node slot)]
    by_cases hk : slot = c.slots
    · rw [hk, h.tailFree _ le_rfl, if_pos rfl] at hp
      rw [hk, Function.update_self, if_neg hne, List.filter_cons_of_pos (by simp), hp]
    · rw [Function.update_of_ne hk, ← hp]
      exact List.filter_cons_of_neg (by simpa using Ne.symm hk)

theorem routes_perm (routes : Routes) (slot : ℕ) :
    (routes.filter (·.1 = slot) ++ routes.filter (·.1 ≠ slot)).Perm routes := by
  have h := List.filter_append_perm (fun r : ℕ × NsObject => decide (r.1 = slot)) routes
  simpa only [ne_eq, decide_not] using h

theorem HoldsRoutes.clear (h : HoldsRoutes cfg c routes)
    (hp : routes.filter (·.1 = slot) = [(slot, c.slot slot)]) :
    HoldsRoutes cfg (c.clear slot) (routes.filter (·.1 ≠ slot)) := by
  have hm : (slot, c.slot slot) ∈ routes :=
    List.mem_of_mem_filter (hp ▸ List.mem_singleton_self _)
  have hin : c.slot slot ∈ c.installed := by
    rw [h.installed, Multiset.mem_coe]
    exact List.mem_map.mpr ⟨_, hm, rfl⟩
  have hne : c.slot slot ≠ 0 := (mem_installed.mp hin).1
  have hlt : slot < c.slots := not_le.mp fun hge => hne (h.tailFree slot hge)
  refine ⟨h.tailFree.clear slot, (slots_clear_le c slot).trans_lt h.slots, ?_, fun hsym k => ?_⟩
  · have hperm := ((routes_perm routes slot).map Prod.snd).symm
    rw [hp] at hperm
    have hinst := installed_of_clear hlt hne
    rw [h.installed, Multiset.coe_eq_coe.mpr hperm, List.singleton_append, List.map_cons,
      ← Multiset.cons_coe] at hinst
    exact ((Multiset.cons_inj_right _).mp hinst).symm
  · change List.filter _ (routes.filter _) = if Function.update c.slot slot 0 k = 0 then []
      else [(k, Function.update c.slot slot 0 k)]
    rw [List.filter_filter]
    by_cases hk : k = slot
    · rw [hk, Function.update_self, if_pos rfl]
      refine List.filter_eq_nil_iff.mpr fun r _ => ?_
      simp
    · rw [Function.update_of_ne hk, ← h.placed hsym k]
      refine List.filter_congr fun r _ => ?_
      by_cases hr : r.1 = k
      · simp [hr, hk]
      · simp [hr]

theorem HoldsRoutes.classify (hq : ∀ cmp l, (cfg.qsort cmp l).Perm l)
    (h : HoldsRoutes cfg c routes) {p : IpHeader} {cl : ℕ}
    (hc : c.classify cfg p = .ok (cl, c')) : HoldsRoutes cfg c' routes := by
  have hsame := SameObjects.of_classify hq h.tailFree hc
  refine ⟨hsame.tailFree, hsame.slots ▸ h.slots, hsame.installed ▸ h.installed, fun hsym => ?_⟩
  rw [Placed, slot_of_classify hsym hc]
  exact h.placed hsym

theorem routeMachine_step {r r' : MultiPathForwarder × Routes} {x : ForwarderCall}
    (h : (routeMachine cfg).step r x = .ok r') :
    x.step cfg r.1 = .ok r'.1 ∧ r'.2 = x.record r.1 r'.1 r.2 :=
  (Machine.withHistory_step_iff (M := forwarderMachine cfg) _).mp h

theorem holdsRoutes_invariant (hq : ∀ cmp l, (cfg.qsort cmp l).Perm l) :
    ((routeMachine cfg).restrict fun r x => Returned r x ∧
      (cfg.symmetric = false ∨ InPlace r x)).Invariant fun r => HoldsRoutes cfg r.1 r.2 where
  init r hr := by
    obtain ⟨hc, hl⟩ := hr
    rw [hc, hl]
    exact ⟨fun _ _ => rfl, by decide, rfl, fun _ _ => rfl⟩
  step r x r' h he hs := by
    obtain ⟨hen, hret, hin⟩ := he
    obtain ⟨hs, hl⟩ := routeMachine_step hs
    rw [hl]
    cases x with
    | installNext node =>
      rw [← Except.ok.inj hs]
      exact h.installNext hen.1 hen.2
    | clear slot =>
      rw [← Except.ok.inj hs]
      refine h.clear ?_
      rcases hin with hsym | hin
      · obtain ⟨node, hm⟩ := hret slot rfl
        exact (h.placed hsym).inPlace hm
      · exact hin slot rfl
    | classify p =>
      change (r.1.classify cfg p).map Prod.snd = _ at hs
      cases hc : r.1.classify cfg p with
      | error e => rw [hc] at hs; cases hs
      | ok y =>
        rw [hc] at hs
        rw [← Except.ok.inj hs]
        exact h.classify hq hc

/-- In every run in which cleared slots hold the object that was installed there, as they always
do with round robin, exactly the objects that are installed can be selected, and one is selected
whenever there is one. -/
theorem selectable_iff_routed (hq : IsQsort cfg.qsort)
    (h : ((routeMachine cfg).restrict fun r x => Returned r x ∧
      (cfg.symmetric = false ∨ InPlace r x)).Reachable (c, routes)) :
    (∀ node, Selectable cfg node c ↔ ∃ slot, (slot, node) ∈ routes) ∧
      (routes ≠ [] → ∀ p, ∃ cl c', c.classify cfg p = .ok (cl, c') ∧
        ∃ slot, (slot, c'.slot cl) ∈ routes) := by
  have hI := (holdsRoutes_invariant hq.perm).reachable h
  have hmem : ∀ node, node ∈ c.installed ↔ ∃ slot, (slot, node) ∈ routes := fun node => by
    rw [hI.installed, Multiset.mem_coe, List.mem_map]
    constructor
    · rintro ⟨⟨slot, _⟩, hm, rfl⟩
      exact ⟨slot, hm⟩
    · rintro ⟨slot, hm⟩
      exact ⟨_, hm, rfl⟩
  have hlt : c.slots < 2 ^ 32 := hI.slots.trans (by decide)
  refine ⟨fun node => (selectable_iff hq.perm hI.tailFree hlt).trans (hmem node), fun hne p => ?_⟩
  have ho : c.installed ≠ 0 := by
    rw [hI.installed]
    simpa using hne
  obtain ⟨cl, c', hc, hin⟩ := classify_of_installed hq.perm hI.tailFree ho p
  exact ⟨cl, c', hc, (hmem _).mp hin⟩

end Runs

section Examples

instance (cfg : MultiPathConfig) (r : MultiPathForwarder × Routes) (x : ForwarderCall) :
    Decidable ((routeMachine cfg).Enabled r x) :=
  inferInstanceAs (Decidable ((forwarderMachine cfg).Enabled r.1 x))

instance (r : MultiPathForwarder × Routes) : ∀ x, Decidable (Returned r x)
  | .clear slot => decidable_of_iff (r.2.any fun s => s.1 = slot) (by simp [Returned])
  | .installNext _ => .isTrue (by simp [Returned])
  | .classify _ => .isTrue (by simp [Returned])

instance (r : MultiPathForwarder × Routes) : ∀ x, Decidable (InPlace r x)
  | .clear slot => decidable_of_iff (r.2.filter (·.1 = slot) = [(slot, r.1.slot slot)])
      (by simp [InPlace])
  | .installNext _ => .isTrue (by simp [InPlace])
  | .classify _ => .isTrue (by simp [InPlace])

/-- The sort exchanges the objects, and then the slot of one is cleared. -/
theorem cleared_route_selectable :
    ∃ c routes, ((routeMachine seedConfig).restrict Returned).Reachable (c, routes) ∧
      (∃ node, Selectable seedConfig node c ∧ ∀ slot, (slot, node) ∉ routes) ∧
      ∃ slot node, (slot, node) ∈ routes ∧ ¬ Selectable seedConfig node c := by
  have hstart : ((routeMachine seedConfig).restrict Returned).Reachable ({}, []) := .init ⟨rfl, rfl⟩
  obtain ⟨⟨c, routes⟩, hr, hp⟩ := hstart.exists_of_exec
    [.installNext 2, .installNext 1, .classify ⟨0, 0, 0⟩, .clear 0]
    (fun r => r.1.slots = 2 ∧ r.1.slot 0 = 0 ∧ r.1.slot 1 = 2 ∧ r.2 = [(1, 1)])
    (by decide +kernel)
  obtain ⟨hslots, h₀, h₁, hroutes⟩ := of_decide_eq_true hp
  have ht : c.TailFree :=
    ((forwarder_invariant sortByInsertion_perm).withHistory.restrict.reachable hr).1
  have hiff : ∀ node, Selectable seedConfig node c ↔ node ∈ c.installed := fun node =>
    selectable_iff sortByInsertion_perm ht (hslots.trans_lt (by decide))
  have hmem : ∀ node, node ∈ c.installed ↔ node = 2 := fun node => by
    have htable : c.table = [0, 2] := by simp [table, show c.slots = 2 from hslots,
      show c.slot 0 = 0 from h₀, show c.slot 1 = 2 from h₁, List.range_succ]
    rw [installed, htable]
    simp
  obtain rfl : routes = [(1, 1)] := hroutes
  refine ⟨c, _, hr, ⟨2, (hiff 2).mpr ((hmem 2).mpr rfl), fun slot hm => ?_⟩, 1, 1,
    List.mem_singleton_self _, fun hs => ?_⟩
  · exact absurd (List.mem_singleton.mp hm) (by simp)
  · exact absurd ((hmem 1).mp ((hiff 1).mp hs)) (by decide)

/-- With the objects in order the sort moves nothing. -/
theorem selectable_iff_routed_sorted : ∃ c routes, routes = [(1, 2)] ∧
    (∀ node, Selectable seedConfig node c ↔ ∃ slot, (slot, node) ∈ routes) ∧
      ∀ p, ∃ cl c', c.classify seedConfig p = .ok (cl, c') ∧
        ∃ slot, (slot, c'.slot cl) ∈ routes := by
  have hstart : ((routeMachine seedConfig).restrict fun r x => Returned r x ∧
      (seedConfig.symmetric = false ∨ InPlace r x)).Reachable ({}, []) := .init ⟨rfl, rfl⟩
  obtain ⟨⟨c, routes⟩, hr, hp⟩ := hstart.exists_of_exec
    [.installNext 1, .installNext 2, .classify ⟨0, 0, 0⟩, .clear 0]
    (fun r => r.2 = [(1, 2)]) (by decide +kernel)
  obtain rfl : routes = [(1, 2)] := of_decide_eq_true hp
  obtain ⟨hsel, hfound⟩ := selectable_iff_routed isQsort_sortByInsertion hr
  exact ⟨c, _, rfl, hsel, hfound (List.cons_ne_nil _ _)⟩

end Examples

end Ns2XPass
