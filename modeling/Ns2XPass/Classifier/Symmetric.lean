import Ns2XPass.Classifier.MultiPath

/-! # Symmetric forwarding

The choice is the same for a packet and its reverse. It does not depend on how
the objects came into the table either, if the table is sorted when it is
searched, has as many slots, and the comparison puts its objects in order.
-/

namespace Ns2XPass

def IpHeader.reverse (p : IpHeader) : IpHeader := { p with saddr := p.daddr, daddr := p.saddr }

namespace MultiPathForwarder

variable {c d : MultiPathForwarder} {cfg : MultiPathConfig} {i j k : ℕ}

/-- The object to which `classify` leads. -/
def choice (cfg : MultiPathConfig) (p : IpHeader) (c : MultiPathForwarder) : Option NsObject :=
  match c.classify cfg p with
  | .error _ => none
  | .ok (cl, c) => some (c.slot cl)

/-! ## The reverse direction -/

theorem lower_comm (x y : BitVec 32) :
    (if x.slt y then x else y) = if y.slt x then y else x := by
  simp only [BitVec.slt_eq_decide, decide_eq_true_iff]
  split_ifs with h h'
  · exact absurd h' h.not_gt
  · rfl
  · rfl
  · exact BitVec.eq_of_toInt_eq (le_antisymm (not_lt.mp ‹_›) (not_lt.mp h)) |>.symm

theorem higher_comm (x y : BitVec 32) :
    (if y.slt x then x else y) = if x.slt y then y else x := by
  simp only [BitVec.slt_eq_decide, decide_eq_true_iff]
  split_ifs with h h'
  · exact absurd h' h.not_gt
  · rfl
  · rfl
  · exact BitVec.eq_of_toInt_eq (le_antisymm (not_lt.mp h) (not_lt.mp ‹_›)) |>.symm

theorem hkey_reverse (cfg : MultiPathConfig) (p : IpHeader) : hkey cfg p.reverse = hkey cfg p := by
  rw [hkey, hkey, IpHeader.reverse]
  dsimp only
  rw [lower_comm, higher_comm]

theorem choice_reverse (cfg : MultiPathConfig) (hsym : cfg.symmetric = true) (p : IpHeader)
    (c : MultiPathForwarder) : c.choice cfg p.reverse = c.choice cfg p := by
  rw [choice, choice, classify, classify, hkey_reverse, if_pos hsym]

/-! ## The comparison -/

/-- The part of an address that is compared. -/
def lowWord (a : NsObject) : BitVec 32 := a.setWidth 32

/-- The low words of the objects differ, and by less than `2 ^ 31`. -/
structure Comparable (l : List NsObject) : Prop where
  window : ∃ base, ∀ a ∈ l, (lowWord a - base).toNat < 2 ^ 31
  distinct : ∀ a ∈ l, ∀ b ∈ l, lowWord a = lowWord b → a = b

theorem toInt_sub_of_window {x y base : BitVec 32} (hx : (x - base).toNat < 2 ^ 31)
    (hy : (y - base).toNat < 2 ^ 31) :
    (x - y).toInt = ((x - base).toNat : ℤ) - (y - base).toNat := by
  have hxy : x - y = (x - base) - (y - base) := by bv_omega
  rw [hxy, BitVec.toInt_sub, BitVec.toInt_eq_toNat_of_lt (by omega),
    BitVec.toInt_eq_toNat_of_lt (by omega)]
  rw [Int.bmod_eq_of_le] <;> omega

/-- Within the window the objects are compared as numbers. -/
theorem Comparable.slotcmp_eq {l : List NsObject} (h : Comparable l) :
    ∃ key : NsObject → ℤ, (∀ a ∈ l, ∀ b ∈ l, slotcmp a b = key a - key b) ∧
      ∀ a ∈ l, ∀ b ∈ l, key a = key b → a = b := by
  obtain ⟨base, hw⟩ := h.window
  refine ⟨fun a => (lowWord a - base).toNat,
    fun a ha b hb => toInt_sub_of_window (hw a ha) (hw b hb), fun a ha b hb hab => ?_⟩
  have hlow : lowWord a - base = lowWord b - base :=
    BitVec.eq_of_toNat_eq (Int.ofNat_inj.mp hab)
  exact h.distinct a ha b hb (by bv_omega)

theorem Comparable.consistent {l : List NsObject} (h : Comparable l) : Consistent slotcmp l := by
  obtain ⟨key, hkey, -⟩ := h.slotcmp_eq
  refine ⟨fun a ha b hb => ?_, fun a ha b hb c hc hab hbc => ?_⟩
  · rw [hkey a ha b hb, hkey b hb a ha]
    omega
  · rw [hkey a ha b hb] at hab
    rw [hkey b hb c hc] at hbc
    rw [hkey a ha c hc]
    omega

theorem Comparable.antisymm {l : List NsObject} (h : Comparable l) {a b : NsObject} (ha : a ∈ l)
    (hb : b ∈ l) (hab : slotcmp a b ≤ 0) (hba : slotcmp b a ≤ 0) : a = b := by
  obtain ⟨key, hkey, hinj⟩ := h.slotcmp_eq
  rw [hkey a ha b hb] at hab
  rw [hkey b hb a ha] at hba
  exact hinj a ha b hb (by omega)

/-! ## Tables that are searched alike -/

/-- The table is in order when it is searched: it is sorted, or about to be. -/
def Arranged (c : MultiPathForwarder) : Prop :=
  c.sortedSlots = 0 ∨ c.sortedSlots < c.slots ∨ Sorted slotcmp c.table

theorem table_sortIfDue_perm (hq : ∀ cmp l, (cfg.qsort cmp l).Perm l) (c : MultiPathForwarder) :
    (c.sortIfDue cfg).table.Perm c.table := by
  rw [sortIfDue]
  split_ifs
  · exact table_sort hq ▸ hq slotcmp c.table
  · rfl

theorem Arranged.sorted (hq : IsQsort cfg.qsort) (h : c.Arranged)
    (hc : Consistent slotcmp c.table) : Sorted slotcmp (c.sortIfDue cfg).table := by
  rw [sortIfDue]
  split_ifs with hdue
  · exact table_sort hq.perm ▸ hq.sorted slotcmp c.table hc
  · exact (h.resolve_left fun h₀ => hdue (.inl h₀)).resolve_left fun h₁ => hdue (.inr h₁)

/-- A table is its objects and its empty slots. -/
theorem table_perm (c : MultiPathForwarder) :
    c.table.Perm (c.table.filter (· ≠ 0) ++
      List.replicate (c.slots - (c.table.filter (· ≠ 0)).length) 0) := by
  have hp := List.filter_append_perm (fun a : NsObject => decide (a ≠ 0)) c.table
  have hz : c.table.filter (fun a => !decide (a ≠ 0)) =
      List.replicate (c.table.filter fun a => !decide (a ≠ 0)).length 0 :=
    List.eq_replicate_of_mem fun a ha => by simpa using (List.mem_filter.mp ha).2
  have hlen := hp.length_eq
  rw [List.length_append, length_table] at hlen
  rw [hz, show (c.table.filter fun a => !decide (a ≠ 0)).length =
    c.slots - (c.table.filter (· ≠ 0)).length by omega] at hp
  exact hp.symm

theorem table_perm_of_installed (hs : c.slots = d.slots) (h : c.installed = d.installed) :
    c.table.Perm d.table := by
  have hp : (c.table.filter (· ≠ 0)).Perm (d.table.filter (· ≠ 0)) := Multiset.coe_eq_coe.mp h
  refine (table_perm c).trans (List.Perm.trans ?_ (table_perm d).symm)
  rw [hs, hp.length_eq]
  exact hp.append_right _

/-- What makes the tables of two histories the same when they are searched. -/
structure SameOrder (c d : MultiPathForwarder) : Prop where
  slots : c.slots = d.slots
  installed : c.installed = d.installed
  arranged : c.Arranged ∧ d.Arranged
  comparable : Comparable c.table

theorem SameOrder.table_eq (hq : IsQsort cfg.qsort) (h : SameOrder c d) :
    (c.sortIfDue cfg).table = (d.sortIfDue cfg).table := by
  have hp := table_perm_of_installed h.slots h.installed
  have hc := table_sortIfDue_perm hq.perm c
  have hmem : ∀ a ∈ (c.sortIfDue cfg).table, a ∈ c.table := fun a ha => hc.mem_iff.mp ha
  have hcons := h.comparable.consistent
  refine (h.arranged.1.sorted hq hcons).eq_of_perm (h.arranged.2.sorted hq (hcons.perm hp))
    (hc.trans (hp.trans (table_sortIfDue_perm hq.perm d).symm)) fun a ha b hb => ?_
  exact h.comparable.antisymm (hmem a ha) (hmem b hb)

/-! ## The object found from a slot -/

/-- The object of the first occupied slot from `i` on. -/
def found (c : MultiPathForwarder) (i : ℕ) : NsObject :=
  (probe c.free c.slots i (c.slots + 1) i).elim 0 fun r => c.slot r.1

theorem choice_eq (hsym : cfg.symmetric = true) (hq : ∀ cmp l, (cfg.qsort cmp l).Perm l)
    (ht : c.TailFree) (ho : c.installed ≠ 0) (p : IpHeader) :
    c.choice cfg p =
      some ((c.sortIfDue cfg).found ((hashString cfg (hkey cfg p)).toNat % c.slots)) := by
  have hs : c.slots ≠ 0 := by
    obtain ⟨i, hi, -⟩ := exists_occupied ho
    omega
  obtain ⟨cl, next, hp, -⟩ := probe_occupied (ht.sortIfDue cfg) (by rwa [installed_sortIfDue hq])
    ((hashString cfg (hkey cfg p)).toNat % (c.sortIfDue cfg).slots)
  rw [choice, classify_symmetric hsym hs, found, ← slots_sortIfDue cfg c, hp]
  rfl

theorem found_occupied (h : c.slot i ≠ 0) : c.found i = c.slot i := by
  have hf : c.free i = false := decide_eq_false h
  rw [found, probe_succ, if_neg (by simp [hf])]
  rfl

theorem found_ahead (hi : i < c.slots) (hk : k < c.slots)
    (hfree : ∀ j < k, c.slot ((i + j) % c.slots) = 0) (ho : c.slot ((i + k) % c.slots) ≠ 0) :
    c.found i = c.slot ((i + k) % c.slots) := by
  rw [found, probe_eq (fun j hj => decide_eq_true (hfree j hj)) (decide_eq_false ho)
    (fun j hj => ahead_ne_fail hi (.inl rfl) (by omega)) (hk.trans (Nat.lt_succ_self _)) hi]
  rfl

/-- The slots from `i` on, up to the first occupied one. -/
theorem exists_first (hi : i < c.slots) (ho : c.installed ≠ 0) :
    ∃ k < c.slots, (∀ j < k, c.slot ((i + j) % c.slots) = 0) ∧ c.slot ((i + k) % c.slots) ≠ 0 := by
  obtain ⟨x, hx, hne⟩ := exists_occupied ho
  obtain ⟨d, hd, hdx⟩ := exists_ahead hi hx
  have hex : ∃ k, c.slot ((i + k) % c.slots) ≠ 0 := ⟨d, hdx ▸ hne⟩
  refine ⟨Nat.find hex, (Nat.find_le (hdx ▸ hne)).trans_lt hd, fun j hj => ?_, Nat.find_spec hex⟩
  exact not_not.mp (Nat.find_min hex hj)

theorem found_free (hi : i < c.slots) (ho : c.installed ≠ 0) (h : c.slot i = 0) :
    c.found i = c.found ((i + 1) % c.slots) := by
  obtain ⟨k, hk, hfree, hne⟩ := exists_first hi ho
  cases k with
  | zero =>
    rw [Nat.add_zero, Nat.mod_eq_of_lt hi] at hne
    exact absurd h hne
  | succ k =>
    have hmod : ∀ j, ((i + 1) % c.slots + j) % c.slots = (i + (j + 1)) % c.slots := fun j => by
      rw [Nat.mod_add_mod, add_assoc, add_comm 1 j]
    have hpos : 0 < c.slots := Nat.zero_lt_of_lt hi
    rw [found_ahead hi hk hfree hne, found_ahead (k := k) (Nat.mod_lt _ hpos) (by omega), hmod]
    · intro j hj
      rw [hmod]
      exact hfree (j + 1) (Nat.succ_lt_succ hj)
    · rwa [hmod]

/-- Behind an object comes another one, when there is another one. -/
theorem found_next {x : ℕ} (hi : i < c.slots) (hx : x < c.slots) (hne : x ≠ i)
    (hox : c.slot x ≠ 0) (hinj : ∀ a < c.slots, c.slot a ≠ 0 → c.slot a = c.slot i → a = i) :
    c.found ((i + 1) % c.slots) ≠ c.slot i := by
  have hpos : 0 < c.slots := Nat.zero_lt_of_lt hi
  have hmod : ∀ j, ((i + 1) % c.slots + j) % c.slots = (i + 1 + j) % c.slots := fun j =>
    Nat.mod_add_mod ..
  have ho : c.installed ≠ 0 := fun hz =>
    Multiset.notMem_zero _ (hz ▸ mem_installed.mpr ⟨hox, x, hx, rfl⟩)
  obtain ⟨k, hk, hfree, hfound⟩ := exists_first (Nat.mod_lt (i + 1) hpos) ho
  obtain ⟨d, hd, hdx⟩ := exists_ahead (Nat.mod_lt (i + 1) hpos) hx
  -- the other object is met before the probe has come round to `i` again
  have hkd : k ≤ d := not_lt.mp fun hlt => hox (hdx ▸ hfree d hlt)
  have hlast : k + 1 < c.slots := by
    refine (Nat.succ_le_of_lt hk).lt_of_ne fun hlast => hne ?_
    have hdk : d = k := by omega
    rw [← hdx, hdk, hmod, show i + 1 + k = i + c.slots by omega, Nat.add_mod_right,
      Nat.mod_eq_of_lt hi]
  rw [found_ahead (Nat.mod_lt _ hpos) hk hfree hfound]
  intro heq
  have hi' := hinj _ (Nat.mod_lt _ hpos) hfound heq
  rw [hmod] at hi'
  rcases Nat.lt_or_ge (i + 1 + k) c.slots with hlt | hge
  · rw [Nat.mod_eq_of_lt hlt] at hi'
    omega
  · rw [Nat.mod_eq_sub_mod hge, Nat.mod_eq_of_lt (by omega)] at hi'
    omega

/-! ## Objects in one slot each -/

/-- No object is in two slots, and there are two objects at least. -/
structure Several (c : MultiPathForwarder) : Prop where
  nodup : c.installed.Nodup
  two : ∃ a ∈ c.installed, ∃ b ∈ c.installed, a ≠ b

theorem Several.ne_zero (h : c.Several) : c.installed ≠ 0 := by
  obtain ⟨a, ha, -⟩ := h.two
  exact fun hz => Multiset.notMem_zero a (hz ▸ ha)

theorem Several.slot_inj (h : c.Several) (hi : i < c.slots) (hj : j < c.slots)
    (hne : c.slot i ≠ 0) (heq : c.slot i = c.slot j) : i = j := by
  have hpair : c.table.Pairwise fun a b => decide (a ≠ 0) = true → decide (b ≠ 0) = true → a ≠ b :=
    List.pairwise_filter.mp (Multiset.coe_nodup.mp h.nodup)
  have hget : ∀ {a b : ℕ}, a < b → b < c.slots → c.slot a ≠ 0 → c.slot a ≠ c.slot b := by
    intro a b hab hb ha heq'
    have hp := List.pairwise_iff_getElem.mp hpair a b (length_table.symm ▸ hab.trans hb)
      (length_table.symm ▸ hb) hab
    simp only [table, List.getElem_map, List.getElem_range, decide_eq_true_iff] at hp
    exact hp ha (heq' ▸ ha) heq'
  rcases lt_trichotomy i j with hlt | heq' | hlt
  · exact absurd heq (hget hlt hj hne)
  · exact heq'
  · exact absurd heq.symm (hget hlt hi (heq ▸ hne))

/-- The slot of an object is where the object is found, and another one behind it. -/
theorem Several.slot_eq_iff (h : c.Several) {a : NsObject} (ha : a ≠ 0) (x : ℕ) :
    c.slot (x % c.slots) = a ↔
      c.found (x % c.slots) = a ∧ c.found ((x + 1) % c.slots) ≠ a := by
  have hpos : 0 < c.slots := by
    obtain ⟨i, hi, -⟩ := exists_occupied h.ne_zero
    omega
  have hx : x % c.slots < c.slots := Nat.mod_lt x hpos
  rw [← Nat.mod_add_mod]
  constructor
  · rintro rfl
    obtain ⟨y, hy, hyne⟩ : ∃ y < c.slots, c.slot y ≠ 0 ∧ c.slot y ≠ c.slot (x % c.slots) := by
      obtain ⟨a, ha, b, hb, hab⟩ := h.two
      obtain ⟨ha, i, hi, rfl⟩ := mem_installed.mp ha
      obtain ⟨hb, j, hj, rfl⟩ := mem_installed.mp hb
      by_cases hi' : c.slot i = c.slot (x % c.slots)
      · exact ⟨j, hj, hb, hi' ▸ hab.symm⟩
      · exact ⟨i, hi, ha, hi'⟩
    exact ⟨found_occupied ha, found_next hx hy (fun hyx => hyne.2 (hyx ▸ rfl)) hyne.1
      fun z hz hzne hzeq => h.slot_inj hz hx hzne hzeq⟩
  · rintro ⟨hf, hn⟩
    by_cases hz : c.slot (x % c.slots) = 0
    · exact absurd (found_free hx h.ne_zero hz ▸ hf) hn
    · rwa [found_occupied hz] at hf

/-- The tables of two forwarders, when every start leads to the same object in both. -/
structure FoundAlike (c d : MultiPathForwarder) : Prop where
  several : c.Several ∧ d.Several
  slots : c.slots < 2 ^ 31 ∧ d.slots < 2 ^ 31
  found : ∀ x < 2 ^ 32, c.found (x % c.slots) = d.found (x % d.slots)

theorem FoundAlike.symm (h : FoundAlike c d) : FoundAlike d c :=
  ⟨h.several.symm, h.slots.symm, fun x hx => (h.found x hx).symm⟩

theorem FoundAlike.slot_eq (h : FoundAlike c d) {x : ℕ} (hx : x + 1 < 2 ^ 32) :
    c.slot (x % c.slots) = d.slot (x % d.slots) := by
  have hiff : ∀ a ≠ 0, c.slot (x % c.slots) = a ↔ d.slot (x % d.slots) = a := fun a ha => by
    rw [h.several.1.slot_eq_iff ha, h.several.2.slot_eq_iff ha, h.found x (by omega),
      h.found (x + 1) hx]
  by_cases hc : c.slot (x % c.slots) = 0
  · by_contra hne
    exact hne ((hiff _ fun hd => hne (hc.trans hd.symm)).mpr rfl)
  · exact ((hiff _ hc).mp rfl).symm

theorem FoundAlike.slots_le (h : FoundAlike c d) : d.slots ≤ c.slots := by
  obtain ⟨i, hi, hne⟩ := exists_occupied h.several.1.ne_zero
  obtain ⟨hcs, hds⟩ := h.slots
  have hpos : 0 < d.slots := by
    obtain ⟨j, hj, -⟩ := exists_occupied h.several.2.ne_zero
    omega
  -- the object comes again after `c.slots` slots
  have h₁ := h.slot_eq (show i + 1 < 2 ^ 32 by omega)
  have h₂ := h.slot_eq (show i + c.slots + 1 < 2 ^ 32 by omega)
  rw [Nat.mod_eq_of_lt hi] at h₁
  rw [Nat.add_mod_right, Nat.mod_eq_of_lt hi] at h₂
  have hmod := h.several.2.slot_inj (Nat.mod_lt i hpos) (Nat.mod_lt (i + c.slots) hpos)
    (h₁ ▸ hne) (h₁.symm.trans h₂)
  have hdvd : d.slots ∣ c.slots := by
    have := (Nat.modEq_iff_dvd' (Nat.le_add_right i c.slots)).mp hmod
    rwa [Nat.add_sub_cancel_left] at this
  exact Nat.le_of_dvd (Nat.zero_lt_of_lt hi) hdvd

theorem FoundAlike.table_eq (h : FoundAlike c d) : c.table = d.table := by
  have hs : c.slots = d.slots := le_antisymm h.symm.slots_le h.slots_le
  rw [table, table, ← hs]
  refine List.map_congr_left fun i hi => ?_
  have hlt := List.mem_range.mp hi
  have hcs := h.slots.1
  have heq := h.slot_eq (show i + 1 < 2 ^ 32 by omega)
  rwa [← hs, Nat.mod_eq_of_lt hlt] at heq

theorem Several.sortIfDue (hq : ∀ cmp l, (cfg.qsort cmp l).Perm l) (h : c.Several) :
    (c.sortIfDue cfg).Several := by
  obtain ⟨hn, ht⟩ := h
  rw [← installed_sortIfDue hq (c := c)] at hn ht
  exact ⟨hn, ht⟩

/-- Tables that are alike are searched alike. -/
theorem found_eq_of_table (hc : c.TailFree) (hd : d.TailFree) (h : c.table = d.table) :
    c.slots = d.slots ∧ c.found = d.found := by
  have hs : c.slots = d.slots := by rw [← length_table, h, length_table]
  have hslot : c.slot = d.slot := by
    funext i
    rcases Nat.lt_or_ge i c.slots with hlt | hge
    · rw [table, table, ← hs] at h
      exact List.map_inj_left.mp h i (List.mem_range.mpr hlt)
    · rw [hc i hge, hd i (hs ▸ hge)]
  have hfree : c.free = d.free := by
    funext i
    rw [free, free, hslot]
  refine ⟨hs, funext fun i => ?_⟩
  rw [found, found, hs, hslot, hfree]

end MultiPathForwarder

open MultiPathForwarder

variable {cfg : MultiPathConfig} {c d : MultiPathForwarder}

/-- The choice is the same for the reverse packet. It is the same after two histories when the
tables are searched in the same order, and for several objects in one slot each exactly then. -/
theorem choice_eq_of_sameOrder (hq : IsQsort cfg.qsort) (hsym : cfg.symmetric = true)
    (hc : (forwarderMachine cfg).Reachable c) (hd : (forwarderMachine cfg).Reachable d) :
    (∀ p, c.choice cfg p.reverse = c.choice cfg p) ∧
    (c.installed ≠ 0 → SameOrder c d → ∀ p, ∃ node ∈ c.installed,
      c.choice cfg p = some node ∧ d.choice cfg p = some node) ∧
    (c.Several → c.installed = d.installed →
      ((∀ rand p, c.choice { cfg with rand } p = d.choice { cfg with rand } p) ↔
        (c.sortIfDue cfg).table = (d.sortIfDue cfg).table)) := by
  obtain ⟨htc, hsc⟩ := (forwarder_invariant hq.perm).reachable hc
  obtain ⟨htd, hsd⟩ := (forwarder_invariant hq.perm).reachable hd
  have hchoice : ∀ {x : MultiPathForwarder}, x.TailFree → x.installed ≠ 0 → ∀ rand p,
      x.choice { cfg with rand } p = some ((x.sortIfDue cfg).found
        ((hashString { cfg with rand } (hkey { cfg with rand } p)).toNat % x.slots)) :=
    fun ht ho rand p => choice_eq (by exact hsym) (by exact hq.perm) ht ho p
  have hsame : c.installed ≠ 0 → c.installed = d.installed →
      (c.sortIfDue cfg).table = (d.sortIfDue cfg).table → ∀ rand p,
        c.choice { cfg with rand } p = d.choice { cfg with rand } p := by
    intro ho hi htab rand p
    obtain ⟨hslots, hfound⟩ := found_eq_of_table (htc.sortIfDue cfg) (htd.sortIfDue cfg) htab
    rw [slots_sortIfDue, slots_sortIfDue] at hslots
    rw [hchoice htc ho, hchoice htd (hi ▸ ho), hfound, hslots]
  refine ⟨fun p => choice_reverse cfg hsym p c, fun ho hso p => ?_, fun hsev hi => ⟨fun h => ?_,
    hsame hsev.ne_zero hi⟩⟩
  · obtain ⟨cl, c', hcl, hm⟩ := classify_of_installed hq.perm htc ho p
    have hnode : c.choice cfg p = some (c'.slot cl) := by rw [choice, hcl]
    exact ⟨_, hm, hnode, (hsame ho hso.installed (hso.table_eq hq) cfg.rand p).symm.trans hnode⟩
  · have hsev' : d.Several := ⟨hi ▸ hsev.nodup, hi ▸ hsev.two⟩
    refine FoundAlike.table_eq ⟨⟨hsev.sortIfDue hq.perm, hsev'.sortIfDue hq.perm⟩, ?_, fun x hx => ?_⟩
    · rw [slots_sortIfDue, slots_sortIfDue]
      exact ⟨hsc, hsd⟩
    · have hx' : (BitVec.ofNat 32 x).toNat = x := by
        rw [BitVec.toNat_ofNat, Nat.mod_eq_of_lt hx]
      have heq := h (fun _ => BitVec.ofNat 32 x) ⟨0, 0, 0⟩
      rw [hchoice htc hsev.ne_zero, hchoice htd hsev'.ne_zero] at heq
      have hfound := Option.some.inj heq
      change (c.sortIfDue cfg).found ((BitVec.ofNat 32 x).toNat % c.slots) =
        (d.sortIfDue cfg).found ((BitVec.ofNat 32 x).toNat % d.slots) at hfound
      rwa [hx', ← slots_sortIfDue cfg c, ← slots_sortIfDue cfg d] at hfound

section Examples

theorem forwarder_new : (forwarderMachine seedConfig).Reachable {} := .init rfl

theorem installed_of_table {l : List NsObject} (h : c.table = l) :
    c.installed = (l.filter (· ≠ 0) : List NsObject) := by rw [installed, h]

/-- A slot that is cleared and filled again is not sorted: the choice depends on the history. -/
theorem choice_depends_on_history :
    ∃ c d, (forwarderMachine seedConfig).Reachable c ∧ (forwarderMachine seedConfig).Reachable d ∧
      c.installed ≠ 0 ∧ c.installed = d.installed ∧
      ∃ p, c.choice seedConfig p ≠ d.choice seedConfig p := by
  obtain ⟨c, hc, hpc⟩ := forwarder_new.exists_of_exec [.installNext 1, .installNext 2]
    (fun c => c.table = [1, 2] ∧ c.choice seedConfig ⟨0, 0, 0⟩ = some 1) (by decide +kernel)
  obtain ⟨d, hd, hpd⟩ := forwarder_new.exists_of_exec
    [.installNext 2, .installNext 3, .classify ⟨0, 0, 0⟩, .clear 1, .installNext 1]
    (fun d => d.table = [2, 1] ∧ d.choice seedConfig ⟨0, 0, 0⟩ = some 2) (by decide +kernel)
  obtain ⟨htc, hcc⟩ := of_decide_eq_true hpc
  obtain ⟨htd, hcd⟩ := of_decide_eq_true hpd
  refine ⟨c, d, hc, hd, ?_, ?_, ⟨0, 0, 0⟩, ?_⟩
  · rw [installed_of_table htc]
    decide
  · rw [installed_of_table htc, installed_of_table htd]
    decide
  · rw [hcc, hcd]
    decide

/-- Installed in either order, and sorted now or before. -/
theorem choice_eq_of_sameOrder_two :
    ∃ c d : MultiPathForwarder, c.table = [2, 1] ∧ d.table = [1, 2] ∧ ∀ p, ∃ node ∈ c.installed,
      c.choice seedConfig p = some node ∧ d.choice seedConfig p = some node ∧
      c.choice seedConfig p.reverse = some node := by
  obtain ⟨c, hc, hpc⟩ := forwarder_new.exists_of_exec [.installNext 2, .installNext 1]
    (fun c => c.table = [2, 1] ∧ c.sortedSlots = 0 ∧ c.slots = 2) (by decide +kernel)
  obtain ⟨d, hd, hpd⟩ := forwarder_new.exists_of_exec
    [.installNext 1, .installNext 2, .classify ⟨0, 0, 0⟩]
    (fun d => d.table = [1, 2] ∧ d.slots = 2) (by decide +kernel)
  obtain ⟨htc, hdue, hsc⟩ := of_decide_eq_true hpc
  obtain ⟨htd, hsd⟩ := of_decide_eq_true hpd
  have hsorted : Sorted slotcmp d.table := by
    rw [htd]
    exact List.pairwise_pair.mpr (by decide)
  have hcomp : Comparable c.table := by
    rw [htc]
    exact ⟨⟨0, by simp [lowWord]⟩, by simp [lowWord]⟩
  have hi : c.installed = d.installed := by
    rw [installed_of_table htc, installed_of_table htd]
    decide
  have ho : c.installed ≠ 0 := by
    rw [installed_of_table htc]
    decide
  obtain ⟨hrev, hsame, -⟩ := choice_eq_of_sameOrder isQsort_sortByInsertion rfl hc hd
  refine ⟨c, d, htc, htd, fun p => ?_⟩
  obtain ⟨node, hm, h₁, h₂⟩ :=
    hsame ho ⟨hsc.trans hsd.symm, hi, ⟨.inl hdue, .inr (.inr hsorted)⟩, hcomp⟩ p
  exact ⟨node, hm, h₁, h₂, (hrev p).trans h₁⟩

end Examples

end Ns2XPass
