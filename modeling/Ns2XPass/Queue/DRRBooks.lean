import Mathlib.Algebra.BigOperators.Ring.Finset
import Ns2XPass.Queue.LinkedDropTail
import Ns2XPass.Queue.DRRRuns

/-! # The books of deficit round robin

In every run the counters agree with the packets, also when a drop takes the
last packet of the flow that has its turn. Such a flow may be passed once without
a quantum, so the loop of `deque` takes at most one visit more for each flow.
-/

namespace Ns2XPass

def LinkedEffect.packet {α : Type} : LinkedEffect α → α
  | .forward p | .drop p => p

namespace DRR

variable {α : Type} [DecidableEq α]

/-- A packet with some bytes that is not in the queue, and has a bucket. -/
def Admits (ip : α → IpHeader) (s : DRR α) : QueueCall α → Prop
  | .enque p => (∀ b < s.buckets.toNat, p ∉ s.contents b) ∧ 0 ≤ s.bucketIndex ip p ∧ 0 < s.size p
  | .deque => True

instance (ip : α → IpHeader) (s : DRR α) (x : QueueCall α) : Decidable (s.Admits ip x) :=
  match x with
  | .enque _ => inferInstanceAs (Decidable (_ ∧ _))
  | .deque => inferInstanceAs (Decidable True)

/-- The packets that have arrived, and those that have left, each in order. -/
structure Books (α : Type) where
  arrived : List α := []
  left : List (LinkedEffect α) := []

namespace Books

variable (ip : α → IpHeader) (s : DRR α) (x : QueueCall α) (k : Books α)

def after : Books α :=
  match x with
  | .enque p =>
    match s.enque ip p with
    | .ok r => ⟨k.arrived ++ [p], k.left ++ r.1.map .drop⟩
    | .error _ => k
  | .deque =>
    match s.deque with
    | .ok (some p, _) => { k with left := k.left ++ [.forward p] }
    | _ => k

/-- The packets that have arrived for a bucket have left in the same order, but for those that the
bucket holds. -/
def Balanced (ip : α → IpHeader) (s : DRR α) (k : Books α) (contents : ℕ → List α) : Prop :=
  ∀ b, k.arrived.filter (s.which ip · = b) =
    (k.left.map LinkedEffect.packet).filter (s.which ip · = b) ++ contents b

end Books

/-- Packets of any size come and go. -/
def bookedMachine (ip : α → IpHeader) : Machine (DRR α × Books α) (QueueCall α) FlowError :=
  Machine.withHistory { machine ip 0 with Enabled := Admits ip } {} fun s x _ k => k.after ip s x

instance (ip : α → IpHeader) (r : DRR α × Books α) (x : QueueCall α) :
    Decidable ((bookedMachine ip).Enabled r x) :=
  inferInstanceAs (Decidable (r.1.Admits ip x))

variable {ip : α → IpHeader} {max : ℤ} {s s' s'' : DRR α} {p : α} {b c : ℕ} {ps : List α}
  {contents : ℕ → List α} {as : List ℕ} {k : Books α}

/-! ## What never changes -/

/-- The settings are the same, and so are the sizes of the packets. -/
structure Settled (s s' : DRR α) : Prop where
  buckets : s'.buckets = s.buckets
  blimit : s'.blimit = s.blimit
  mask : s'.mask = s.mask
  size : s'.size = s.size

namespace Settled

omit [DecidableEq α] in
theorem refl (s : DRR α) : Settled s s := ⟨rfl, rfl, rfl, rfl⟩

omit [DecidableEq α] in
theorem trans (h : Settled s s') (h' : Settled s' s'') : Settled s s'' :=
  ⟨h'.buckets.trans h.buckets, h'.blimit.trans h.blimit, h'.mask.trans h.mask,
    h'.size.trans h.size⟩

omit [DecidableEq α] in
theorem which_eq (h : Settled s s') : s'.which ip = s.which ip := by
  funext p
  simp only [which, bucketIndex, h.buckets, h.mask]

omit [DecidableEq α] in
theorem of_leave (h : s.leave c = .ok s') : Settled s s' := by
  unfold leave at h
  cases hi : PacketDRR.idle s.ring c s.curr with
  | error e => simp [hi, Except.map] at h
  | ok r =>
    obtain rfl := by simpa [hi, Except.map] using h
    exact ⟨rfl, rfl, rfl, rfl⟩

theorem of_taken (s : DRR α) (p : α) (c : ℕ) : Settled s (s.taken p c) := ⟨rfl, rfl, rfl, rfl⟩

theorem of_dropOne (h : s.dropOne = .ok (p, s')) : Settled s s' := by
  obtain ⟨b, hb, h⟩ := bind_eq_ok.mp h
  cases hd : (s.drr.deque b).1 with
  | none => simp [hd] at h
  | some q =>
    simp only [hd] at h
    split at h
    · cases hl : (s.taken q b).leave b with
      | error e => simp [hl, Except.map] at h
      | ok t =>
        obtain ⟨rfl, rfl⟩ := by simpa [hl, Except.map] using h
        exact (of_taken s q b).trans (of_leave hl)
    · obtain ⟨rfl, rfl⟩ := by simpa using h
      exact of_taken s q b

theorem of_accept (hs : s'.size = s.size) (h : s.accept ip p = .ok s') : Settled s s' := by
  unfold accept at h
  cases hj : (s.drr.enque p (s.which ip p)).join s.ring s.curr (s.which ip p) with
  | error e => simp [hj, Except.map] at h
  | ok r =>
    simp only [hj, Except.map, Except.ok.injEq] at h
    split at h
    · subst h
      exact ⟨rfl, rfl, rfl, hs⟩
    · subst h
      exact ⟨rfl, rfl, rfl, hs⟩

omit [DecidableEq α] in
theorem of_grant (s : DRR α) (c : ℕ) : Settled s (s.grant c) := by
  unfold grant
  split
  · exact refl s
  · exact ⟨rfl, rfl, rfl, rfl⟩

omit [DecidableEq α] in
theorem of_pass (s : DRR α) (c : ℕ) : Settled s (s.pass c) := ⟨rfl, rfl, rfl, rfl⟩

theorem of_serve (h : s.serve p c = .ok s') : Settled s s' := by
  unfold serve at h
  dsimp only at h
  split at h
  · have hl := of_leave h
    exact ⟨hl.buckets, hl.blimit, hl.mask, hl.size⟩
  · obtain rfl := Except.ok.inj h
    exact ⟨rfl, rfl, rfl, rfl⟩

theorem of_serveFrom {n : ℕ} (h : serveFrom n s = .ok (p, s')) : Settled s s' := by
  induction n generalizing s with
  | zero => cases h
  | succ n ih =>
    rw [serveFrom] at h
    split at h
    · cases h
    · next c hc =>
      dsimp only at h
      split at h
      · cases h
      · split at h
        · next q hq hle =>
          cases hv : (s.grant c).serve q c with
          | error e => simp [hv, Except.map] at h
          | ok t =>
            obtain ⟨rfl, rfl⟩ := by simpa [hv, Except.map] using h
            exact (of_grant s c).trans (of_serve hv)
        · exact (of_grant s c).trans ((of_pass (s.grant c) c).trans (ih h))

end Settled

omit [DecidableEq α] in
theorem Holds.mono {max' : ℤ} (h : Holds ip max s contents as) (hm : max ≤ max') :
    Holds ip max' s contents as :=
  { h with sizes := fun b p hp => ⟨(h.sizes b p hp).1, (h.sizes b p hp).2.trans hm⟩ }

/-! ## Dropping -/

/-- The loop of `enque` drops packets from the fronts of their buckets until they are not too
many. -/
theorem Holds.drops_books (h : Holds ip max s contents as) {n : ℕ} (hn : s.pktcnt ≤ n) :
    ∃ ps s' contents' as', DRR.dropFrom n s = .ok (ps, s') ∧ Holds ip max s' contents' as' ∧
      Settled s s' ∧ s'.bytecnt ≤ s'.blimit ∧ s'.deficitCounter = s.deficitCounter ∧
      (∀ b ∈ as', b ∈ as) ∧ ∀ b, contents b = ps.filter (s.which ip · = b) ++ contents' b := by
  induction n generalizing s contents as with
  | zero =>
    have hnil : as = [] := by
      by_contra hne
      have := h.pktcnt_pos hne
      omega
    have hle : ¬ s.blimit < s.bytecnt := by
      have := h.bytecnt_eq_zero.mpr hnil
      have := h.blimit
      omega
    exact ⟨[], s, contents, as, by rw [DRR.dropFrom, if_neg hle], h, .refl s, not_lt.mp hle, rfl,
      fun _ hb => hb, fun _ => rfl⟩
  | succ n ih =>
    by_cases hlt : s.blimit < s.bytecnt
    · have hne : as ≠ [] := by
        have := h.blimit
        exact mt h.bytecnt_eq_zero.mpr (by omega)
      obtain ⟨b, p, ps, s₁, hd⟩ := h.dropOne hne
      obtain ⟨qs, s₂, contents₂, as₂, hd₂, h₂, hset, hle, hdef, hsub, hrest⟩ :=
        ih hd.holds (by rw [hd.pktcnt]; omega)
      have hset₁ := Settled.of_dropOne hd.result
      refine ⟨p :: qs, s₂, contents₂, as₂, ?_, h₂, hset₁.trans hset, hle, hdef.trans hd.deficit,
        fun c hc => ?_, fun c => ?_⟩
      · simp only [DRR.dropFrom, if_pos hlt, hd.result, Bind.bind, Except.bind, hd₂]
      · have hc := hsub c hc
        split at hc
        · exact List.mem_of_mem_filter hc
        · exact hc
      · have hhome : s.which ip p = b := (h.home b p (by simp [hd.first])).1
        have hc := hrest c
        rw [hset₁.which_eq] at hc
        by_cases hcb : c = b
        · subst hcb
          rw [Function.update_self] at hc
          rw [hd.first, hc, List.filter_cons_of_pos (by simpa using hhome), List.cons_append]
        · rw [Function.update_of_ne hcb] at hc
          have hne : s.which ip p ≠ c := fun he => hcb (he.symm.trans hhome)
          rw [hc, List.filter_cons_of_neg (by simpa using hne)]
    · exact ⟨[], s, contents, as, by rw [DRR.dropFrom, if_neg hlt], h, .refl s, not_lt.mp hlt, rfl,
        fun _ hb => hb, fun _ => rfl⟩

/-- A packet comes to its bucket, and others may be dropped for it. -/
theorem Holds.enque_books (h : Holds ip max s contents as) (hl : ∀ b ∈ as, 0 ≤ s.deficitCounter b)
    (he : s.Enabled ip max (.enque p)) :
    ∃ ps s' contents' as', s.enque ip p = .ok (ps, s') ∧ Holds ip max s' contents' as' ∧
      Settled s s' ∧ s'.bytecnt ≤ s'.blimit ∧ (∀ b ∈ as', 0 ≤ s'.deficitCounter b) ∧
      ∀ b, contents b ++ [p].filter (s.which ip · = b) =
        ps.filter (s.which ip · = b) ++ contents' b := by
  obtain ⟨s₁, ha, h₁, hdef₁, -, -, hsize⟩ := h.accept he
  have hset₁ := Settled.of_accept hsize ha
  obtain ⟨ps, s', contents', as', hd, h', hset, hle, hdef, hsub, hrest⟩ :=
    h₁.drops_books (Int.self_le_toNat _)
  refine ⟨ps, s', contents', as', ?_, h', hset₁.trans hset, hle, fun b hb => ?_, fun b => ?_⟩
  · simp only [DRR.enque, ha, Bind.bind, Except.bind, hd]
  · have hb := hsub b hb
    rw [hdef, hdef₁]
    split at hb
    · next hnil =>
      rw [if_pos hnil]
      by_cases hbw : b = s.which ip p
      · rw [hbw, Function.update_self]
      · rw [Function.update_of_ne hbw]
        apply hl b
        rcases List.mem_append.mp hb with hb | hb
        · exact hb
        · exact absurd (List.mem_singleton.mp hb) hbw
    · next hnil =>
      rw [if_neg hnil]
      exact hl b hb
  · have hb := hrest b
    rw [hset₁.which_eq] at hb
    rw [← hb]
    by_cases hbw : b = s.which ip p
    · subst hbw
      simp
    · rw [Function.update_of_ne hbw, List.filter_cons_of_neg (by simpa using Ne.symm hbw)]
      simp

/-! ## Serving -/

/-- The bytes that the flows lack for their first packets, and a visit for each flow that has its
turn. -/
def lack (s : DRR α) (contents : ℕ → List α) (as : List ℕ) : ℕ :=
  (as.map fun b => ((((contents b).map s.size).headD 0) - s.deficitCounter b).toNat +
    if s.turn b then 1 else 0).sum

omit [DecidableEq α] in
/-- Passing a flow leaves fewer bytes to be granted, or takes its turn. -/
theorem Holds.lack_pass (h : Holds ip max s contents (c :: as)) (hc : contents c = p :: ps)
    (hlt : (s.grant c).deficitCounter c < s.size p) :
    ((s.grant c).pass c).lack contents (as ++ [c]) < s.lack contents (c :: as) := by
  have hca : c ∉ as := (List.nodup_cons.mp h.onRing.spells.nodup).1
  have hq := h.quantum
  have hrest : as.map (fun b => ((((contents b).map ((s.grant c).pass c).size).headD 0) -
      ((s.grant c).pass c).deficitCounter b).toNat + if ((s.grant c).pass c).turn b then 1 else 0) =
        as.map fun b => ((((contents b).map s.size).headD 0) - s.deficitCounter b).toNat +
          if s.turn b then 1 else 0 := by
    apply List.map_congr_left
    intro b hb
    have hbc := ne_of_mem_of_not_mem hb hca
    have hturn : ((s.grant c).pass c).turn b = s.turn b := by
      change Function.update (s.grant c).turn c false b = s.turn b
      rw [Function.update_of_ne hbc, grant_turn, Function.update_of_ne hbc]
    have hdef : ((s.grant c).pass c).deficitCounter b = s.deficitCounter b := by
      change (s.grant c).deficitCounter b = _
      rw [grant_deficit, Function.update_of_ne hbc]
    have hsize : ((s.grant c).pass c).size = s.size := grant_size s c
    rw [hturn, hdef, hsize]
  have hturn : ((s.grant c).pass c).turn c = false := Function.update_self ..
  have hsize : ((s.grant c).pass c).size = s.size := grant_size s c
  have hdef : ((s.grant c).pass c).deficitCounter c =
      s.deficitCounter c + if s.turn c then 0 else s.quantum := by
    change (s.grant c).deficitCounter c = _
    rw [grant_deficit, Function.update_self]
  rw [grant_deficit, Function.update_self] at hlt
  unfold lack
  rw [List.map_append, hrest, List.map_singleton, List.sum_append, List.sum_singleton,
    List.map_cons, List.sum_cons, hturn, hdef, hsize, hc, List.map_cons, List.headD_cons]
  cases ht : s.turn c with
  | true =>
    simp only [ht, if_true, Bool.false_eq_true, if_false] at hlt ⊢
    omega
  | false =>
    simp only [ht, Bool.false_eq_true, if_false] at hlt ⊢
    omega

omit [DecidableEq α] in
/-- The flows on the ring have at least a byte each, and all bytes together. -/
theorem Holds.sum_bcount (h : Holds ip max s contents as) :
    as.length ≤ (as.map fun b => (s.bcount b).toNat).sum ∧
      (as.map fun b => (s.bcount b).toNat).sum ≤ s.bytecnt.toNat := by
  constructor
  · have hone : ∀ n ∈ as.map fun b => (s.bcount b).toNat, 1 ≤ n := by
      rintro n hn
      obtain ⟨b, hb, rfl⟩ := List.mem_map.mp hn
      obtain ⟨p, hp⟩ := List.exists_mem_of_ne_nil _ ((h.onRing.mem b).mp hb)
      have hpos := (h.sizes b p hp).1
      have hle : s.size p ≤ s.bcount b := by
        rw [h.bcount]
        apply List.single_le_sum
        · rintro n hn
          obtain ⟨a, ha, rfl⟩ := List.mem_map.mp hn
          exact (h.sizes b a ha).1.le
        · exact List.mem_map_of_mem hp
      omega
    have := List.length_le_sum_of_one_le _ hone
    rwa [List.length_map] at this
  · have hsub : as.toFinset ⊆ Finset.range s.buckets.toNat := fun b hb =>
      Finset.mem_range.mpr (h.lt ((h.onRing.mem b).mp (List.mem_toFinset.mp hb)))
    have hsum : (∑ b ∈ Finset.range s.buckets.toNat, (s.bcount b).toNat : ℕ) = s.bytecnt.toNat := by
      apply Int.ofNat_inj.mp
      rw [h.bytecnt, Int.toNat_of_nonneg (Finset.sum_nonneg fun b _ => h.bcount_nonneg b),
        Nat.cast_sum]
      exact Finset.sum_congr rfl fun b _ => Int.toNat_of_nonneg (h.bcount_nonneg b)
    rw [← hsum, ← List.sum_toFinset _ h.onRing.spells.nodup]
    exact Finset.sum_le_sum_of_subset hsub

omit [DecidableEq α] in
theorem Holds.lack_lt_steps (h : Holds ip max s contents as) (hne : as ≠ [])
    (hl : ∀ b ∈ as, 0 ≤ s.deficitCounter b) : s.lack contents as < s.steps := by
  obtain ⟨hlen, hbytes⟩ := h.sum_bcount
  have hle : s.lack contents as ≤ (as.map fun b => (s.bcount b).toNat + 1).sum := by
    apply List.sum_le_sum
    rintro b hb
    have hdef := hl b hb
    have hhead : ((contents b).map s.size).headD 0 ≤ s.bcount b := by
      rw [h.bcount]
      cases hc : contents b with
      | nil => exact le_rfl
      | cons p ps =>
        rw [List.map_cons, List.headD_cons, List.sum_cons]
        have : 0 ≤ (ps.map s.size).sum := by
          apply List.sum_nonneg
          rintro n hn
          obtain ⟨a, ha, rfl⟩ := List.mem_map.mp hn
          exact (h.sizes b a (by simp [hc, ha])).1.le
        omega
    split <;> omega
  have hsum : (as.map fun b => (s.bcount b).toNat + 1).sum =
      (as.map fun b => (s.bcount b).toNat).sum + as.length := by
    rw [List.sum_map_add]
    simp
  have hflw : s.flwcnt.toNat = as.length := by rw [h.flwcnt, Int.toNat_natCast]
  have hpos : 1 ≤ as.length := List.length_pos_of_ne_nil hne
  unfold steps
  rw [hflw]
  have hprod : s.bytecnt.toNat + as.length ≤ as.length * s.bytecnt.toNat + 1 := by
    obtain ⟨k, hk⟩ : ∃ k, as.length = k + 1 := ⟨as.length - 1, by omega⟩
    rw [hk] at hlen ⊢
    have : k ≤ k * s.bytecnt.toNat := Nat.le_mul_of_pos_right k (by omega)
    rw [Nat.add_mul]
    omega
  omega

/-- The loop passes flows until one of them has enough bytes for its first packet. -/
theorem Holds.serveFrom_books (h : Holds ip max s contents as) (hne : as ≠ [])
    (hl : ∀ b ∈ as, 0 ≤ s.deficitCounter b) {n : ℕ} (hn : s.lack contents as < n) :
    ∃ p c ps s' as', contents c = p :: ps ∧ DRR.serveFrom n s = .ok (p, s') ∧
      Holds ip max s' (Function.update contents c ps) as' ∧
      ∀ b ∈ as', 0 ≤ s'.deficitCounter b := by
  induction n generalizing s as with
  | zero => omega
  | succ n ih =>
    obtain ⟨c, as, rfl⟩ := List.exists_cons_of_ne_nil hne
    obtain ⟨p, ps, hps⟩ := List.exists_cons_of_ne_nil ((h.onRing.mem c).mp List.mem_cons_self)
    have hq := h.quantum
    have hgrant : ∀ b ∈ c :: as, 0 ≤ (s.grant c).deficitCounter b := by
      rintro b hb
      have := hl b hb
      rw [grant_deficit]
      by_cases hbc : b = c
      · subst hbc
        rw [Function.update_self]
        split <;> omega
      · rwa [Function.update_of_ne hbc]
    rcases le_or_gt (s.size p) ((s.grant c).deficitCounter c) with hle | hlt
    · obtain ⟨s', hserve, hs', hdef, -⟩ := (h.grant c).serve hps
      refine ⟨p, c, ps, s', _, hps, ?_, hs', fun b hb => ?_⟩
      · rw [serveFrom_succ h hps, if_pos hle, hserve]
        rfl
      · rw [hdef]
        rw [grant_size]
        by_cases hbc : b = c
        · subst hbc
          rw [Function.update_self]
          split <;> omega
        · rw [Function.update_of_ne hbc]
          apply hgrant b
          split at hb
          · exact List.mem_cons_of_mem c hb
          · exact hb
    · have hlt' := h.lack_pass hps hlt
      obtain ⟨p', c', ps', s', as', hps', hr, hs', hl'⟩ := ih (h.grant c).pass (by simp)
        (fun b hb => hgrant b (by simpa [or_comm] using hb)) (by omega)
      refine ⟨p', c', ps', s', as', hps', ?_, hs', hl'⟩
      rw [serveFrom_succ h hps, if_neg (not_le.mpr hlt)]
      exact hr

/-! ## Runs -/

omit [DecidableEq α] in
theorem Books.Balanced.arrive {contents' : ℕ → List α} (hk : k.Balanced ip s contents)
    (hs : Settled s s') (h : ∀ b, contents b ++ [p].filter (s.which ip · = b) =
      ps.filter (s.which ip · = b) ++ contents' b) :
    (⟨k.arrived ++ [p], k.left ++ ps.map .drop⟩ : Books α).Balanced ip s' contents' := by
  intro b
  have hps : (ps.map LinkedEffect.drop).map LinkedEffect.packet = ps := by
    rw [List.map_map]
    exact List.map_id ps
  rw [hs.which_eq, List.filter_append, hk b, List.append_assoc, h b, List.map_append, hps,
    List.filter_append, List.append_assoc]

omit [DecidableEq α] in
theorem Books.Balanced.depart (hk : k.Balanced ip s contents) (hs : Settled s s')
    (hc : contents c = p :: ps) (hp : s.which ip p = c) :
    ({ k with left := k.left ++ [.forward p] } : Books α).Balanced ip s'
      (Function.update contents c ps) := by
  intro b
  rw [hs.which_eq, hk b, List.map_append, List.filter_append, List.append_assoc]
  congr 1
  by_cases hb : b = c
  · subst hb
    rw [Function.update_self, hc]
    simp [LinkedEffect.packet, hp]
  · have hne : s.which ip p ≠ b := fun he => hb (he.symm.trans hp)
    rw [Function.update_of_ne hb]
    simp [LinkedEffect.packet, hne]

/-- The books are right. -/
def Right (ip : α → IpHeader) (s : DRR α) (k : Books α) : Prop :=
  ∃ max contents as, Holds ip max s contents as ∧ (∀ b ∈ as, 0 ≤ s.deficitCounter b) ∧
    k.Balanced ip s contents

theorem Right.enque (h : Right ip s k) (he : s.Admits ip (.enque p)) :
    ∃ r, s.enque ip p = .ok r ∧ r.2.bytecnt ≤ s.blimit ∧
      Right ip r.2 (k.after ip s (.enque p)) := by
  obtain ⟨max, contents, as, h, hl, hk⟩ := h
  obtain ⟨hnew, h0, hpos⟩ := he
  have h := h.mono (le_max_left max (s.size p))
  obtain ⟨ps, s', contents', as', hr, h', hset, hle, hl', hrest⟩ :=
    h.enque_books hl ⟨hnew, h0, hpos, le_max_right _ _⟩
  refine ⟨(ps, s'), hr, hset.blimit ▸ hle, _, contents', as', h', hl', ?_⟩
  rw [Books.after, hr]
  exact hk.arrive hset hrest

theorem Right.deque (h : Right ip s k) :
    ∃ r, s.deque = .ok r ∧ (r.1.isSome ↔ 0 < s.pktcnt) ∧ Right ip r.2 (k.after ip s .deque) := by
  obtain ⟨max, contents, as, h, hl, hk⟩ := h
  by_cases hne : as = []
  · subst hne
    have hempty : ∀ b, contents b = [] := fun b =>
      not_not.mp ((h.onRing.mem b).not.mp List.not_mem_nil)
    have hzero : s.pktcnt = 0 := by
      rw [h.pktcnt]
      apply Finset.sum_eq_zero
      rintro b -
      rw [hempty b]
      rfl
    refine ⟨(none, s), h.deque_nil, by simp [hzero], max, contents, [], h, hl, ?_⟩
    simpa [Books.after, h.deque_nil] using hk
  · obtain ⟨p, c, ps, s', as', hps, hr, h', hl'⟩ :=
      h.serveFrom_books hne hl (h.lack_lt_steps hne hl)
    have hd : s.deque = .ok (some p, s') := by
      rw [DRR.deque, if_neg (mt h.bytecnt_eq_zero.mp hne), hr]
      rfl
    refine ⟨(some p, s'), hd, by simp [h.pktcnt_pos hne], max, _, as', h', hl', ?_⟩
    rw [Books.after, hd]
    exact hk.depart (.of_serveFrom hr) hps (h.home c p (by simp [hps])).1

theorem invariant_right : (bookedMachine ip).Invariant fun r => Right ip r.1 r.2 where
  init := by
    rintro ⟨s, k⟩ ⟨⟨buckets, blimit, quantum, mask, memory, hb, hlim, hq, hs⟩, hk⟩
    have hk : k = {} := hk
    have hs : s = _ := hs
    rw [hs, hk]
    refine ⟨0, fun _ => [], [], ⟨FlowQueues.holds_empty memory, ⟨RingLinks.spells_nil, rfl,
      by simp⟩, hb, hlim, hq, fun _ _ h => absurd h List.not_mem_nil,
      fun _ _ h => absurd h List.not_mem_nil, fun _ => rfl, by simp, by simp, rfl⟩, by simp,
      fun _ => rfl⟩
  step := by
    rintro ⟨s, k⟩ x ⟨s', k'⟩ h he hs
    obtain ⟨hs, hk⟩ := (Machine.withHistory_step_iff _).mp hs
    have hs : s.step ip x = .ok s' := hs
    have hk : k' = k.after ip s x := hk
    rw [hk]
    cases x with
    | enque p =>
      obtain ⟨r, hr, -, h'⟩ := h.enque he
      rw [DRR.step, hr] at hs
      obtain rfl : r.2 = s' := Except.ok.inj hs
      exact h'
    | deque =>
      obtain ⟨r, hr, -, h'⟩ := h.deque
      rw [DRR.step, hr] at hs
      obtain rfl : r.2 = s' := Except.ok.inj hs
      exact h'

/-- What the books say of a queue. -/
structure Kept (ip : α → IpHeader) (s : DRR α) (k : Books α) : Prop where
  pktcnt : s.pktcnt = ∑ b ∈ Finset.range s.buckets.toNat, ((s.contents b).length : ℤ)
  bytecnt : s.bytecnt = ∑ b ∈ Finset.range s.buckets.toNat, ((s.contents b).map s.size).sum
  pkts : ∀ b, s.drr.pkts b = (s.contents b).length
  bcount : ∀ b, s.bcount b = ((s.contents b).map s.size).sum
  ring : ∃ as, OnRing s.ring s.curr s.contents as ∧ s.flwcnt = as.length
  balanced : k.Balanced ip s s.contents
  enque : ∀ p, s.Admits ip (.enque p) → ∃ r, s.enque ip p = .ok r ∧ r.2.bytecnt ≤ s.blimit
  deque : ∃ r, s.deque = .ok r ∧ (r.1.isSome ↔ 0 < s.pktcnt)

end DRR

end Ns2XPass
