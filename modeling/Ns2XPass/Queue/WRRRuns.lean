import Ns2XPass.Library.Path
import Ns2XPass.Queue.WRR

/-! # Fairness of the weighted round robin

A class that has used up its credit ends its turn and pays for the bytes it has
sent beyond it on its next turns, as long as its debt stays below its weight. The
bytes of two classes then stay in the proportion of their weights.
-/

namespace Ns2XPass

namespace CBQueue

variable {C : Type} {cfg : CBQConfig C} {now : ℚ} {s s' : CBQueue C}
  {r r' : Scan C} {c : C} {p : Packet} {ps : List Packet} {o : Option Packet}

/-- A credit is at most a weight, and a debt less than a packet. -/
def Levels (cfg : CBQConfig C) (s : CBQueue C) : Prop :=
  ∀ c, 1 ≤ s.weight cfg c → (s.cls c).bytesAlloc ≤ s.weight cfg c ∧
    min 0 (1 - cfg.maxpkt) ≤ (s.cls c).bytesAlloc

def Sizes (cfg : CBQConfig C) (s : CBQueue C) : Prop :=
  ∀ c, ∀ p ∈ (s.sub c).packets, 1 ≤ p.size ∧ p.size ≤ cfg.maxpkt

/-! ## The balance of two classes -/

/-- The part of its weight that a class has spent in its turn, which is its debt between turns. -/
def spent (cfg : CBQConfig C) (s : CBQueue C) (c : C) : ℤ := s.weight cfg c - s.refilled cfg c

/-- The potential of two classes in the ring `as`. -/
def Balance (cfg : CBQConfig C) (as : List C) (i j : C) (s : CBQueue C) (n : ℤ) : Prop :=
  (Ahead i j as ∧ n = s.weight cfg j * s.spent cfg i - s.weight cfg i * s.spent cfg j -
    s.weight cfg i * s.weight cfg j) ∨
  (Ahead j i as ∧ n = s.weight cfg j * s.spent cfg i - s.weight cfg i * s.spent cfg j)

variable {i j : C} {as : List C} {n : ℤ}

theorem Balance.swap (h : Balance cfg as i j s n) :
    Balance cfg as j i s (-n - s.weight cfg i * s.weight cfg j) := by
  rcases h with ⟨ha, rfl⟩ | ⟨ha, rfl⟩
  · exact .inr ⟨ha, by ring⟩
  · exact .inl ⟨ha, by ring⟩

theorem Balance.exists (hi : i ∈ as) (hj : j ∈ as) (hij : i ≠ j) :
    ∃ n, Balance cfg as i j s n := by
  rcases Ahead.total hi hj hij with ha | ha
  · exact ⟨_, .inl ⟨ha, rfl⟩⟩
  · exact ⟨_, .inr ⟨ha, rfl⟩⟩

theorem spent_bound (h : Levels cfg s) (hc : 1 ≤ s.weight cfg c) :
    0 ≤ s.spent cfg c ∧ s.spent cfg c ≤ max (s.weight cfg c) cfg.maxpkt - 1 := by
  obtain ⟨hhi, hlo⟩ := h c hc
  unfold spent refilled
  split <;> omega

/-- Two classes that are not touched keep their balance when the ring goes on behind the part that
the scan has passed. -/
theorem Balance.pass {pre post as' : List C} (h : Balance cfg (pre ++ c :: post) i j s n)
    (hi : i ∉ pre) (hj : j ∉ pre) (hic : i ≠ c) (hjc : j ≠ c) (hM : s'.M = s.M)
    (hbi : (s'.cls i).bytesAlloc = (s.cls i).bytesAlloc)
    (hbj : (s'.cls j).bytesAlloc = (s.cls j).bytesAlloc) (hsub : List.Sublist post as') :
    Balance cfg as' i j s' n := by
  have hw : ∀ x, s'.weight cfg x = s.weight cfg x := fun x => by rw [weight, weight, hM]
  have hs : ∀ x, (s'.cls x).bytesAlloc = (s.cls x).bytesAlloc → s'.spent cfg x = s.spent cfg x := by
    intro x hx
    rw [spent, spent, refilled, refilled, hw, hx]
  unfold Balance
  rw [hw, hw, hs i hbi, hs j hbj]
  rcases h with ⟨ha, hn⟩ | ⟨ha, hn⟩
  · exact .inl ⟨((ha.of_append hi).of_cons (Ne.symm hic)).mono hsub, hn⟩
  · exact .inr ⟨((ha.of_append hj).of_cons (Ne.symm hjc)).mono hsub, hn⟩

/-- The class `i` sends a packet of `z` bytes. -/
theorem Balance.send {pre post : List C} {z : ℤ} (h : Balance cfg (pre ++ i :: post) i j s n)
    (hnd : (pre ++ i :: post).Nodup) (hj : j ∈ pre ++ i :: post) (hjp : j ∉ pre) (hij : i ≠ j)
    (hM : s'.M = s.M) (hbi : (s'.cls i).bytesAlloc = s.refilled cfg i - z)
    (hbj : (s'.cls j).bytesAlloc = (s.cls j).bytesAlloc) :
    Balance cfg (if 0 < (s'.cls i).bytesAlloc then i :: post ++ pre else post ++ pre ++ [i]) i j s'
      (n + s.weight cfg j * z) := by
  have hw : ∀ x, s'.weight cfg x = s.weight cfg x := fun x => by rw [weight, weight, hM]
  have hsj : s'.spent cfg j = s.spent cfg j := by
    rw [spent, spent, refilled, refilled, hw, hbj]
  have hjpost : j ∈ post := by
    simp only [List.mem_append, List.mem_cons, hjp, hij.symm, false_or] at hj
    exact hj
  have hi : i ∉ pre := by
    intro h
    have := (List.nodup_append.mp hnd).2.2 i h i List.mem_cons_self
    exact this rfl
  have hn : n = s.weight cfg j * s.spent cfg i - s.weight cfg i * s.spent cfg j -
      s.weight cfg i * s.weight cfg j := by
    rcases h with ⟨-, hn⟩ | ⟨ha, -⟩
    · exact hn
    · have hnd' : (i :: post).Nodup := (List.nodup_append.mp hnd).2.1
      exact absurd (ha.of_append hjp) (Ahead.not_first hnd')
  unfold Balance
  rw [hw, hw, hsj]
  by_cases hb : 0 < (s'.cls i).bytesAlloc
  · left
    have hsi : s'.spent cfg i = s.spent cfg i + z := by
      rw [spent, spent, hw, refilled, if_neg (not_le.mpr hb), hbi]
      ring
    rw [if_pos hb, hsi, hn]
    exact ⟨(Ahead.first hjpost).append pre, by ring⟩
  · right
    have hsi : s'.spent cfg i = s.spent cfg i + z - s.weight cfg i := by
      rw [spent, spent, hw, refilled, if_pos (not_lt.mp hb), hbi, hw]
      ring
    rw [if_neg hb, hsi, hn]
    exact ⟨Ahead.last (List.mem_append_left pre hjpost), by ring⟩

/-- A class has something to send and is permitted on every visit. -/
def Contends (c : C) (s : CBQueue C) (r : Scan C) : Prop :=
  s.demand c = true ∧ (c, false) ∉ r.asked

/-- On every visit the class's debt is less than its weight. -/
def Solvent (cfg : CBQConfig C) (c : C) (s : CBQueue C) (r : Scan C) : Prop :=
  (c, true) ∈ r.asked → 0 < (s.cls c).bytesAlloc + s.weight cfg c

theorem Solvent.refilled (h : Solvent cfg c s r) (ha : (c, true) ∈ r.asked) :
    0 < s.refilled cfg c := by
  have := h ha
  unfold CBQueue.refilled
  split <;> omega

variable [DecidableEq C]

/-- The bytes of the class `c` that a call of `deque` sends after the scan `r`. -/
def sentBytes (c : C) (s : CBQueue C) (r : Scan C) : ℤ :=
  if r.chosen = some c then
    match (s.sub c).packets with
    | [] => 0
    | p :: _ => p.size
  else 0

/-! ## Bounds of the credit -/

/-- What every visit preserves, a scan preserves. -/
theorem scan_preserves {P : Scan C → Prop} (hw : cfg.wrr = true)
    (hP : ∀ c r, r.eligible = none → P r → P (wrrVisit cfg now c r))
    (hdef : ∀ r n, P r → P { r with deficit := n }) (h : P { queue := s })
    (hs : s.scan cfg now = .ok r) : P r := by
  have hring : ∀ (cs : List C) (r : Scan C), r.eligible = none → P r →
      P (ringScan (wrrVisit cfg now) cs r) := by
    intro cs
    induction cs with
    | nil => exact fun r _ h => h
    | cons c cs ih =>
      intro r he h
      unfold ringScan
      by_cases hf : (wrrVisit cfg now c r).eligible.isSome = true
      · simp only [hf, if_true]
        exact hP c r he h
      · simp only [hf, if_false, Bool.false_eq_true]
        exact ih _ (by simpa using hf) (hP c r he h)
  have hrounds : ∀ (cs : List C) (n : ℕ) (r r' : Scan C), r.eligible = none → P r →
      wrrRounds cfg now cs n r = .ok r' → P r' := by
    intro cs n
    induction n with
    | zero => exact fun r r' _ _ h => by simp [wrrRounds] at h
    | succ n ih =>
      intro r r' he h hr
      unfold wrrRounds at hr
      have hq := hring cs r he h
      generalize ringScan (wrrVisit cfg now) cs r = r₁ at hr hq
      by_cases hf : r₁.eligible.isSome = true
      · simp only [hf, if_true] at hr
        exact Except.ok.inj hr ▸ hq
      · simp only [hf, if_false, Bool.false_eq_true] at hr
        split at hr
        · exact ih { r₁ with deficit := 2 } r' (by simpa using hf) (hdef r₁ 2 hq) hr
        · exact Except.ok.inj hr ▸ hq
  have hprios : ∀ (is : List ℕ) (r r' : Scan C), r.eligible = none → P r →
      scanPrios cfg now is r = .ok r' → P r' := by
    intro is
    induction is with
    | nil => exact fun r r' _ h hr => Except.ok.inj hr ▸ h
    | cons i is ih =>
      intro r r' he h hr
      unfold scanPrios at hr
      split at hr
      · exact ih r r' he h hr
      · obtain ⟨r₁, hr₁, hr⟩ := bind_eq_ok.mp hr
        unfold scanPrio at hr₁
        rw [if_pos hw] at hr₁
        have hq := hrounds _ 2 { r with deficit := 0 } r₁ he (hdef r 0 h) hr₁
        split at hr
        · exact Except.ok.inj hr ▸ hq
        · next hf => exact ih r₁ r' (by simpa using hf) hq hr
  exact hprios _ _ _ rfl h hs

theorem Levels.visit (he : r.eligible = none) (h : Levels cfg r.queue) :
    Levels cfg (wrrVisit cfg now c r).queue := by
  have hk : Kept r.queue (wrrVisit cfg now c r).queue := (visits_wrrVisit c r he).kept
  have hv : Passes cfg c r (wrrVisit cfg now c r) ∨ Finds cfg c r (wrrVisit cfg now c r) :=
    wrrVisit_bytes c r he
  intro x hx
  rw [hk.weight] at hx ⊢
  obtain ⟨hhi, hlo⟩ := h x hx
  have hmin : min 0 (1 - cfg.maxpkt) ≤ 0 := min_le_left _ _
  rcases hv with hp | hf
  · rw [hp.bytes]
    split <;> omega
  · rw [hf.bytes]
    split
    · next hxc =>
      subst hxc
      unfold Scan.credit refilled
      split
      · split <;> omega
      · exact ⟨hhi, hlo⟩
    · exact ⟨hhi, hlo⟩

theorem Levels.scan (h : Levels cfg s) (hw : cfg.wrr = true) (hs : s.scan cfg now = .ok r) :
    Levels cfg r.queue :=
  scan_preserves (P := fun r => Levels cfg r.queue) hw (fun _ _ he h => Levels.visit he h)
    (fun _ _ h => h) h hs

theorem Levels.sent {found : Bool} (h : Levels cfg s) (hw : cfg.wrr = true)
    (hp : 1 ≤ p.size ∧ p.size ≤ cfg.maxpkt) (hs : Sent cfg s c p ps found s') :
    Levels cfg s' := by
  intro x hx
  have hweight : s'.weight cfg x = s.weight cfg x := by rw [weight, weight, hs.M]
  rw [hweight] at hx ⊢
  obtain ⟨hhi, hlo⟩ := h x hx
  cases found with
  | false =>
    rw [hs.unfound rfl]
    exact ⟨hhi, hlo⟩
  | true =>
    rw [hs.bytes hw rfl]
    split
    · next hxc =>
      obtain ⟨rfl, hb⟩ := hxc
      omega
    · exact ⟨hhi, hlo⟩

/-- What `deque` leaves of the rings, the weights and the credits. -/
theorem Dequeued.levels (h : Dequeued cfg now s r o s') (hr : Rests cfg s) (hw : cfg.wrr = true)
    (hl : Levels cfg s) (hz : Sizes cfg s) :
    (∀ i, (s'.active i).Perm (s.active i)) ∧ s'.M = s.M ∧ Levels cfg s' ∧ Sizes cfg s' := by
  rcases h.sends with ⟨hc, rfl, hk⟩ | ⟨c, p, ps, t, hc, hps, rfl, hsent, rfl⟩
  · have hcls : s'.cls = r.queue.cls := by
      have hd := h.deque
      have hsend : sendFrom cfg now r = .ok r.queue := by rw [sendFrom, hc]
      rw [deque_of_sendFrom h.scan hsend] at hd
      rw [← (Prod.mk.inj (Except.ok.inj hd)).2]
    have hlr := hl.scan hw h.scan
    refine ⟨fun i => by rw [hk.active], hk.M, fun x hx => ?_, fun x p hp => ?_⟩
    · have := hlr x (by rwa [h.outcome.kept.weight, ← hk.weight])
      rwa [h.outcome.kept.weight, ← hk.weight, ← hcls] at this
    · exact hz x p (hk.sub ▸ hp)
  · have hk := h.outcome.kept
    have hmem : c ∈ s.active (cfg.cls c).pri := hr.queued c (demand_iff.mpr (by simp [hps]))
    have hlr := (hl.scan hw h.scan).sent hw (hz c p (by simp [hps])) hsent
    refine ⟨fun i => ?_, hsent.M.trans hk.M, hlr, fun x q hq => ?_⟩
    · rw [← hk.active]
      exact hsent.perm (by rwa [hk.active]) i
    · change q ∈ (t.sub x).packets at hq
      rw [hsent.sub, hk.sub] at hq
      by_cases hxc : x = c
      · subst hxc
        rw [Function.update_self] at hq
        exact hz x q (by rw [hps]; exact List.mem_cons_of_mem p hq)
      · rw [Function.update_of_ne hxc] at hq
        exact hz x q hq

/-! ## A call of `deque` -/

/-- While a class of the only populated priority has something to send and is permitted on every
visit, `deque` returns a packet of an eligible class. -/
theorem Dequeued.returns {k : ℕ} (h : Dequeued cfg now s r o s') (hr : Rests cfg s)
    (hw : cfg.wrr = true) (ho : ∀ i, i ≠ k → s.active i = []) (hc : c ∈ s.active k)
    (ht : Contends c s r) : r.eligible.isSome = true ∧ ∃ p, o = some p := by
  have hrounds := hr.scan_only hw ho (List.ne_nil_of_mem hc) h.scan
  have hf := wrrRounds_found rfl (hr.nodup k) hrounds hc ht.1 ht.2
  refine ⟨hf, ?_⟩
  rcases h.sends with ⟨hn, -⟩ | ⟨d, p, ps, t, -, -, rfl, -⟩
  · obtain ⟨d, hd⟩ := Option.isSome_iff_exists.mp hf
    simp [Scan.chosen, hd] at hn
  · exact ⟨p, rfl⟩

/-- The turn that a call of `deque` gives to a class, at the only populated priority `k`. -/
structure Turn (cfg : CBQConfig C) (k : ℕ) (s : CBQueue C) (r : Scan C) (s' : CBQueue C)
    (pre : List C) (c : C) (post : List C) (p : Packet) (ps : List Packet) : Prop where
  split : s.active k = pre ++ c :: post
  eligible : r.eligible = some c
  packets : (s.sub c).packets = p :: ps
  credit : 0 < s.refilled cfg c
  passed : ∀ y, Contends y s r → ((y, true) ∈ r.asked → 0 < s.refilled cfg y) → y ∉ pre
  M : s'.M = s.M
  sub : s'.sub = Function.update s.sub c { s.sub c with packets := ps }
  bytes : ∀ y, (s'.cls y).bytesAlloc = if y ∈ pre then 0
    else if y = c then s.refilled cfg c - p.size else (s.cls y).bytesAlloc
  active : s'.active k = if 0 < (s'.cls c).bytesAlloc then c :: post ++ pre else post ++ pre ++ [c]

/-- A class with something to send that is permitted and has credit on every visit takes the turn
itself, or one before it does. -/
theorem Dequeued.turn {k : ℕ} (h : Dequeued cfg now s r o s') (hr : Rests cfg s)
    (hw : cfg.wrr = true) (ho : ∀ i, i ≠ k → s.active i = []) (hi : i ∈ s.active k)
    (hti : Contends i s r) (hsi : (i, true) ∈ r.asked → 0 < s.refilled cfg i) :
    ∃ pre c post p ps, Turn cfg k s r s' pre c post p ps := by
  have hnd := hr.nodup k
  have hrounds := hr.scan_only hw ho (List.ne_nil_of_mem hi) h.scan
  obtain ⟨pre, c, post, hsplit, he, hcredit, hpre, hbytes⟩ :=
    wrrRounds_first rfl rfl hnd hrounds hi hti.1 hti.2 hsi
  have hk := h.outcome.kept
  have hchosen : r.chosen = some c := by simp [Scan.chosen, he]
  have hfound : r.eligible.isSome = true := by rw [he]; rfl
  rw [hsplit] at hnd
  have hcpre : c ∉ pre := fun hm =>
    (List.nodup_append.mp hnd).2.2 c hm c List.mem_cons_self rfl
  rcases h.sends with ⟨hn, -⟩ | ⟨d, p, ps, t, hd, hps, -, hsent, rfl⟩
  · exact absurd (hn.symm.trans hchosen) (by simp)
  obtain rfl : c = d := Option.some.inj (hchosen.symm.trans hd)
  have hpri : (cfg.cls c).pri = k := by
    refine (hr.ring k c ?_).1
    rw [hsplit]
    exact List.mem_append_right pre List.mem_cons_self
  have hcredit' : (r.queue.cls c).bytesAlloc = s.refilled cfg c := by
    rw [hbytes, if_neg hcpre, if_pos rfl]
    rfl
  refine ⟨pre, c, post, p, ps, hsplit, he, hps, hcredit, fun y hty => hpre y hty.1 hty.2,
    hsent.M.trans hk.M, ?_, fun y => ?_, ?_⟩
  · change t.sub = _
    rw [hsent.sub, hk.sub]
  · change (t.cls y).bytesAlloc = _
    rw [hsent.bytes hw hfound]
    by_cases hyc : y = c
    · subst hyc
      rw [if_pos ⟨rfl, by rw [hcredit']; exact hcredit⟩, hcredit', if_neg hcpre, if_pos rfl]
    · rw [if_neg fun h => hyc h.1, hbytes, if_neg hyc, if_neg hyc]
  · obtain ⟨again, hact, hagain⟩ := hsent.active
    have hag := hagain hw hfound
    change t.active k = if 0 < (t.cls c).bytesAlloc then _ else _
    rw [hact, hpri, Function.update_self, hk.active, hsplit]
    by_cases hpos : 0 < (t.cls c).bytesAlloc
    · rw [if_pos hpos, hag.mpr hpos, if_pos rfl, ringFrom_eq hcpre]
    · rw [if_neg hpos, if_neg (mt hag.mp hpos), peersOf_eq hcpre]

theorem Turn.sentBytes {k : ℕ} {pre post : List C} (h : Turn cfg k s r s' pre c post p ps) (x : C) :
    sentBytes x s r = if x = c then p.size else 0 := by
  have hchosen : r.chosen = some c := by simp [Scan.chosen, h.eligible]
  unfold CBQueue.sentBytes
  by_cases hx : x = c
  · subst hx
    rw [if_pos hchosen, if_pos rfl, h.packets]
  · rw [if_neg, if_neg hx]
    rw [hchosen]
    exact fun h => hx (Option.some.inj h).symm

/-- A call of `deque` moves the balance by the bytes it sends. -/
theorem Dequeued.balance {k : ℕ} (h : Dequeued cfg now s r o s') (hr : Rests cfg s)
    (hw : cfg.wrr = true) (ho : ∀ i, i ≠ k → s.active i = []) (hi : i ∈ s.active k)
    (hj : j ∈ s.active k) (hij : i ≠ j) (hti : Contends i s r) (htj : Contends j s r)
    (hsi : Solvent cfg i s r) (hsj : Solvent cfg j s r)
    (hb : Balance cfg (s.active k) i j s n) :
    Balance cfg (s'.active k) i j s'
      (n + (s.weight cfg j * sentBytes i s r - s.weight cfg i * sentBytes j s r)) := by
  obtain ⟨pre, c, post, p, ps, ht⟩ := h.turn hr hw ho hi hti hsi.refilled
  have hip : i ∉ pre := ht.passed i hti hsi.refilled
  have hjp : j ∉ pre := ht.passed j htj hsj.refilled
  have hnd := hr.nodup k
  rw [ht.split] at hnd hb hi hj
  have hbo : ∀ x, x ∉ pre → x ≠ c → (s'.cls x).bytesAlloc = (s.cls x).bytesAlloc := by
    intro x hx hxc
    rw [ht.bytes, if_neg hx, if_neg hxc]
  have hbc : c ∉ pre → (s'.cls c).bytesAlloc = s.refilled cfg c - p.size := by
    intro hc
    rw [ht.bytes, if_neg hc, if_pos rfl]
  rw [ht.active, ht.sentBytes, ht.sentBytes]
  by_cases hic : i = c
  · subst hic
    have hsend := hb.send hnd hj hjp hij ht.M (hbc hip) (hbo j hjp hij.symm)
    simpa [hij.symm] using hsend
  · by_cases hjc : j = c
    · subst hjc
      have hsend := (hb.swap.send hnd hi hip hij.symm ht.M (hbc hjp) (hbo i hip hij)).swap
      have hw' : ∀ x, s'.weight cfg x = s.weight cfg x := fun x => by rw [weight, weight, ht.M]
      rw [hw', hw'] at hsend
      simp only [hij, if_false, if_true]
      convert hsend using 1
      ring
    · simp only [hic, hjc, if_false, mul_zero, sub_zero, add_zero]
      apply hb.pass hip hjp hic hjc ht.M (hbo i hip hic) (hbo j hjp hjc)
      split
      · exact (List.sublist_cons_self c post).trans (List.sublist_append_left _ pre)
      · exact (List.sublist_append_left post pre).trans (List.sublist_append_left _ [c])

end CBQueue

namespace CBQSystem

open CBQueue

variable {C : Type} [DecidableEq C] {cfg : CBQConfig C} {s s' t : CBQSystem C} {i j c : C} {k : ℕ}

/-! ## Runs -/

/-- A packet that arrives has between 1 and `maxpkt_` bytes. -/
def Sized (cfg : CBQConfig C) (e : CBQEvent C) : Prop :=
  match e with
  | .arrival _ p => 1 ≤ p.size ∧ p.size ≤ cfg.maxpkt
  | _ => True

instance : ∀ e : CBQEvent C, Decidable (Sized cfg e)
  | .arrival _ p => inferInstanceAs (Decidable (1 ≤ p.size ∧ p.size ≤ cfg.maxpkt))
  | .intr => inferInstanceAs (Decidable True)
  | .callback => inferInstanceAs (Decidable True)

def sized (cfg : CBQConfig C) : Machine (CBQSystem C) (ℚ × CBQEvent C) CBQError :=
  (machine cfg).restrict fun _ x => Sized cfg x.2

/-- What holds in all of these runs. -/
structure Fit (cfg : CBQConfig C) (s : CBQSystem C) : Prop where
  waits : Waits cfg s
  levels : Levels cfg s.queue
  sizes : Sizes cfg s.queue

theorem Fit.step (hw : cfg.wrr = true) (h : Fit cfg s) {x : ℚ × CBQEvent C}
    (he : (sized cfg).Enabled s x) (hs : (sized cfg).step s x = .ok s') :
    Fit cfg s' ∧ Moves cfg x s.queue s'.queue ∧ s'.queue.M = s.queue.M ∧
      ∀ n, (s'.queue.active n).Perm (s.queue.active n) := by
  obtain ⟨s₁, hs₁, hwaits, -, hm⟩ := h.waits.step he.1
  obtain rfl := Except.ok.inj (hs₁.symm.trans hs)
  obtain ⟨t, e⟩ := x
  have hdeque : (∃ r o q, Dequeued cfg t s.queue r o q ∧ Agree q s₁.queue) →
      Fit cfg s₁ ∧ Moves cfg (t, e) s.queue s₁.queue ∧ s₁.queue.M = s.queue.M ∧
        ∀ n, (s₁.queue.active n).Perm (s.queue.active n) := by
    rintro ⟨r, o, q, hd, ha⟩
    obtain ⟨hperm, hM, hl, hz⟩ := hd.levels h.waits.rests hw h.levels h.sizes
    refine ⟨⟨hwaits, fun c hc => ?_, fun c p hp => ?_⟩, hm, ha.M.trans hM, fun n => ?_⟩
    · have hweight : s₁.queue.weight cfg c = q.weight cfg c := by rw [weight, weight, ha.M]
      rw [hweight] at hc ⊢
      rw [ha.cls]
      exact hl c hc
    · rw [ha.sub] at hp
      exact hz c p hp
    · rw [ha.active]
      exact hperm n
  cases e with
  | arrival c p =>
    have ha : Agree (s.queue.setSub c fun k => { k with packets := cfg.enque c k.packets p })
      s₁.queue := hm
    refine ⟨⟨hwaits, fun d hd => ?_, fun d q hq => ?_⟩, hm, ha.M, fun n => by rw [ha.active]; rfl⟩
    · have hweight : s₁.queue.weight cfg d = s.queue.weight cfg d := by
        rw [weight, weight, ha.M]
        rfl
      rw [hweight] at hd ⊢
      rw [ha.cls]
      exact h.levels d hd
    · rw [ha.sub, sub_setSub] at hq
      split at hq
      · have hmem := (cfg.enque_sublist c _ p).subset hq
        rcases List.mem_append.mp hmem with hmem | hmem
        · exact h.sizes d q hmem
        · rw [List.mem_singleton.mp hmem]
          exact he.2
      · exact h.sizes d q hq
  | intr => exact hdeque hm
  | callback => exact hdeque hm

theorem invariant_fit (hw : cfg.wrr = true) : (sized cfg).Invariant (Fit cfg) where
  init s h := by
    obtain ⟨cs, hset⟩ := Init.setUp h
    refine ⟨Init.waits h, fun c hc => ?_, fun c p hp => ?_⟩
    · rw [hset.cls]
      omega
    · rw [hset.sub] at hp
      simp at hp
  step _ _ _ h he hs := (h.step hw he hs).1

/-- A state of a path on which the rings keep their classes. -/
structure Steady (cfg : CBQConfig C) (k : ℕ) (q : CBQueue C) (s : CBQSystem C) : Prop where
  fit : Fit cfg s
  M : s.queue.M = q.M
  only : ∀ n, n ≠ k → s.queue.active n = []
  mem : ∀ c, c ∈ s.queue.active k ↔ c ∈ q.active k

theorem Steady.step (hw : cfg.wrr = true) {q : CBQueue C} (h : Steady cfg k q s)
    {x : ℚ × CBQEvent C} (he : (sized cfg).Enabled s x) (hs : (sized cfg).step s x = .ok s') :
    Steady cfg k q s' := by
  obtain ⟨hfit, -, hM, hperm⟩ := h.fit.step hw he hs
  refine ⟨hfit, hM.trans h.M, fun n hn => ?_, fun c => ?_⟩
  · have := hperm n
    rw [h.only n hn] at this
    exact this.eq_nil
  · rw [(hperm k).mem_iff]
    exact h.mem c

omit [DecidableEq C] in
theorem Steady.weight {q : CBQueue C} (h : Steady cfg k q s) (c : C) :
    s.queue.weight cfg c = q.weight cfg c := by
  rw [CBQueue.weight, CBQueue.weight, h.M]

/-- The event calls `deque`. -/
def CallsDeque (e : CBQEvent C) : Prop :=
  match e with
  | .arrival _ _ => False
  | _ => True

/-- The scan of a step that calls `deque`. -/
def scanOf (cfg : CBQConfig C) (r : CBQSystem C × (ℚ × CBQEvent C)) : Option (Scan C) :=
  match r.2.2 with
  | .arrival _ _ => none
  | _ => (r.1.queue.scan cfg r.2.1).toOption

/-- The bytes of a class that are sent in a step. -/
def bytes (cfg : CBQConfig C) (c : C) (r : CBQSystem C × (ℚ × CBQEvent C)) : ℤ :=
  match scanOf cfg r with
  | none => 0
  | some v => sentBytes c r.1.queue v

/-- The class is backlogged and is permitted on every visit of an interval. -/
def ContendsOn (cfg : CBQConfig C) (c : C) (ts : List (CBQSystem C × (ℚ × CBQEvent C))) : Prop :=
  ∀ r ∈ ts, ∀ v, scanOf cfg r = some v → Contends c r.1.queue v

/-- On every visit of an interval the class's debt is less than its weight. -/
def SolventOn (cfg : CBQConfig C) (c : C) (ts : List (CBQSystem C × (ℚ × CBQEvent C))) : Prop :=
  ∀ r ∈ ts, ∀ v, scanOf cfg r = some v → Solvent cfg c r.1.queue v

theorem scanOf_of_callsDeque {x : ℚ × CBQEvent C} (h : CallsDeque x.2) {v : Scan C}
    (hv : s.queue.scan cfg x.1 = .ok v) : scanOf cfg (s, x) = some v := by
  obtain ⟨t, e⟩ := x
  cases e with
  | arrival c p => exact absurd h id
  | intr =>
    change (s.queue.scan cfg t).toOption = some v
    rw [hv]
    rfl
  | callback =>
    change (s.queue.scan cfg t).toOption = some v
    rw [hv]
    rfl

/-- One step moves the balance by the bytes it sends. -/
theorem Steady.balance (hw : cfg.wrr = true) {q : CBQueue C} (h : Steady cfg k q s)
    (hi : i ∈ q.active k) (hj : j ∈ q.active k) (hij : i ≠ j) {x : ℚ × CBQEvent C} {n : ℤ}
    (hE : ∀ v, scanOf cfg (s, x) = some v → (Contends i s.queue v ∧ Contends j s.queue v) ∧
      Solvent cfg i s.queue v ∧ Solvent cfg j s.queue v)
    (he : (sized cfg).Enabled s x) (hs : (sized cfg).step s x = .ok s')
    (hb : Balance cfg (s.queue.active k) i j s.queue n) :
    Balance cfg (s'.queue.active k) i j s'.queue
      (n + (q.weight cfg j * bytes cfg i (s, x) - q.weight cfg i * bytes cfg j (s, x))) := by
  obtain ⟨-, hm, -, -⟩ := h.fit.step hw he hs
  have hagree : ∀ {q₁ : CBQueue C} {m : ℤ}, Agree q₁ s'.queue →
      Balance cfg (q₁.active k) i j q₁ m → Balance cfg (s'.queue.active k) i j s'.queue m := by
    intro q₁ m ha hb
    have hsp : ∀ c, s'.queue.spent cfg c = q₁.spent cfg c := by
      intro c
      rw [spent, spent, refilled, refilled, CBQueue.weight, CBQueue.weight, ha.M, ha.cls]
    have hwt : ∀ c, s'.queue.weight cfg c = q₁.weight cfg c := by
      intro c
      rw [CBQueue.weight, CBQueue.weight, ha.M]
    unfold Balance at hb ⊢
    rwa [ha.active, hsp, hsp, hwt, hwt]
  obtain ⟨t, e⟩ := x
  have hdeque : CallsDeque e → (∃ r o q₁, Dequeued cfg t s.queue r o q₁ ∧ Agree q₁ s'.queue) →
      Balance cfg (s'.queue.active k) i j s'.queue (n + (q.weight cfg j * bytes cfg i (s, (t, e)) -
        q.weight cfg i * bytes cfg j (s, (t, e)))) := by
    rintro hcall ⟨r, o, q₁, hd, ha⟩
    have hv : scanOf cfg (s, (t, e)) = some r := scanOf_of_callsDeque hcall hd.scan
    have hbytes : ∀ c, bytes cfg c (s, (t, e)) = sentBytes c s.queue r := by
      intro c
      rw [bytes, hv]
    obtain ⟨⟨hti, htj⟩, hsi, hsj⟩ := hE r hv
    rw [hbytes, hbytes, ← h.weight, ← h.weight]
    exact hagree ha (hd.balance h.fit.waits.rests hw h.only ((h.mem i).mpr hi) ((h.mem j).mpr hj)
      hij hti htj hsi hsj hb)
  cases e with
  | arrival c p =>
    have hzero : ∀ c', bytes cfg c' (s, (t, .arrival c p)) = 0 := fun _ => rfl
    rw [hzero, hzero, mul_zero, mul_zero, sub_zero, add_zero]
    exact hagree hm hb
  | intr => exact hdeque trivial hm
  | callback => exact hdeque trivial hm

omit [DecidableEq C] in
theorem balance_bound {as : List C} {q : CBQueue C} {n : ℤ} (hl : Levels cfg q)
    (hwi : 1 ≤ q.weight cfg i) (hwj : 1 ≤ q.weight cfg j) (hb : Balance cfg as i j q n) :
    -(q.weight cfg i * (max (q.weight cfg j) cfg.maxpkt - 1)) -
        q.weight cfg i * q.weight cfg j ≤ n ∧
      n ≤ q.weight cfg j * (max (q.weight cfg i) cfg.maxpkt - 1) := by
  obtain ⟨hi₀, hi₁⟩ := spent_bound hl hwi
  obtain ⟨hj₀, hj₁⟩ := spent_bound hl hwj
  have h₁ := mul_le_mul_of_nonneg_left hi₁ (show 0 ≤ q.weight cfg j by omega)
  have h₂ := mul_le_mul_of_nonneg_left hj₁ (show 0 ≤ q.weight cfg i by omega)
  have h₃ := mul_nonneg (show 0 ≤ q.weight cfg j by omega) hi₀
  have h₄ := mul_nonneg (show 0 ≤ q.weight cfg i by omega) hj₀
  have h₅ := mul_nonneg (show 0 ≤ q.weight cfg i by omega) (show 0 ≤ q.weight cfg j by omega)
  rcases hb with ⟨-, rfl⟩ | ⟨-, rfl⟩
  · constructor <;> linarith
  · constructor <;> linarith

/-- The difference of the bytes of two classes, each weighted with the other's weight. -/
theorem sum_difference {α : Type} (u v : ℤ) (f g : α → ℤ) (ts : List α) :
    (ts.map fun r => u * f r - v * g r).sum = u * (ts.map f).sum - v * (ts.map g).sum := by
  induction ts with
  | nil => simp
  | cons r ts ih =>
    simp only [List.map_cons, List.sum_cons, ih]
    ring

theorem normalised_bound {u v a b f g : ℤ} (hu : 1 ≤ u) (hv : 1 ≤ v)
    (hlo : -(v * f + u * g + u * v) ≤ v * a - u * b)
    (hhi : v * a - u * b ≤ v * f + u * g + u * v) :
    |(a / u : ℚ) - b / v| ≤ 1 + f / u + g / v := by
  have hu' : (0 : ℚ) < u := by exact_mod_cast hu
  have hv' : (0 : ℚ) < v := by exact_mod_cast hv
  have hdiff : (a / u : ℚ) - b / v = (v * a - u * b) / (u * v) := by
    field_simp
  have hsum : (1 : ℚ) + f / u + g / v = (v * f + u * g + u * v) / (u * v) := by
    field_simp
    ring
  have hlo' : -((v : ℚ) * f + u * g + u * v) ≤ v * a - u * b := by exact_mod_cast hlo
  have hhi' : (v : ℚ) * a - u * b ≤ v * f + u * g + u * v := by exact_mod_cast hhi
  rw [hdiff, hsum, abs_le, ← neg_div]
  exact ⟨div_le_div_of_nonneg_right hlo' (mul_pos hu' hv').le,
    div_le_div_of_nonneg_right hhi' (mul_pos hu' hv').le⟩

end CBQSystem

open CBQSystem CBQueue in
/-- While a class of the only populated priority is backlogged and permitted on every visit, each
call of `deque` returns a packet. Two such classes are served in the proportion of their weights as
long as their debts stay below their weights. -/
theorem wrr_fair {C : Type} [DecidableEq C] (cfg : CBQConfig C) (hw : cfg.wrr = true)
    {s t : CBQSystem C} {ts : List (CBQSystem C × (ℚ × CBQEvent C))}
    (hr : (sized cfg).Reachable s) (hp : (sized cfg).Path s ts t) {k : ℕ}
    (ho : ∀ n, n ≠ k → s.queue.active n = []) {i : C} (hi : i ∈ s.queue.active k)
    (hti : ContendsOn cfg i ts) :
    (∀ r ∈ ts, CallsDeque r.2.2 → ∃ p q, r.1.queue.deque cfg r.2.1 = .ok (some p, q)) ∧
    ∀ j ∈ s.queue.active k, i ≠ j → ContendsOn cfg j ts →
      1 ≤ s.queue.weight cfg i → 1 ≤ s.queue.weight cfg j →
      SolventOn cfg i ts → SolventOn cfg j ts →
      |((ts.map (bytes cfg i)).sum / s.queue.weight cfg i : ℚ) -
          (ts.map (bytes cfg j)).sum / s.queue.weight cfg j| ≤
        1 + (max (s.queue.weight cfg i) cfg.maxpkt - 1) / s.queue.weight cfg i +
          (max (s.queue.weight cfg j) cfg.maxpkt - 1) / s.queue.weight cfg j := by
  have hsteady : Steady cfg k s.queue s :=
    ⟨(invariant_fit hw).reachable hr, rfl, ho, fun _ => Iff.rfl⟩
  have hthrough := hp.throughout_of_step (I := Steady cfg k s.queue) hsteady
    fun _ _ _ h he hs => h.step hw he hs
  constructor
  · intro r hmem hcall
    have hst := hthrough.1 r hmem
    obtain ⟨v, o, q, hd⟩ := hst.fit.waits.rests.deque r.2.1
    have hv : scanOf cfg r = some v := scanOf_of_callsDeque hcall hd.scan
    obtain ⟨-, p, rfl⟩ := hd.returns hst.fit.waits.rests hw hst.only ((hst.mem i).mpr hi)
      (hti r hmem v hv)
    exact ⟨p, q, hd.deque⟩
  · intro j hj hij htj hwi hwj hsi hsj
    obtain ⟨n, hn⟩ : ∃ n, Balance cfg (s.queue.active k) i j s.queue n := Balance.exists hi hj hij
    have hend : Balance cfg (t.queue.active k) i j t.queue (n + (ts.map fun r =>
        s.queue.weight cfg j * bytes cfg i r - s.queue.weight cfg i * bytes cfg j r).sum) :=
      hp.potential (R := fun s n => Balance cfg (s.queue.active k) i j s.queue n)
        (E := fun u x => ∀ v, scanOf cfg (u, x) = some v →
          (Contends i u.queue v ∧ Contends j u.queue v) ∧
            Solvent cfg i u.queue v ∧ Solvent cfg j u.queue v) hthrough
        (fun r hr v hv => ⟨⟨hti r hr v hv, htj r hr v hv⟩, hsi r hr v hv, hsj r hr v hv⟩) hn
        fun _ _ _ _ hC _ hE he hs hR => hC.balance hw hi hj hij hE he hs hR
    rw [sum_difference] at hend
    have hfit := hthrough.2
    have hlow := balance_bound hsteady.fit.levels hwi hwj hn
    have hhigh := balance_bound hfit.fit.levels (by rwa [hfit.weight]) (by rwa [hfit.weight]) hend
    rw [hfit.weight, hfit.weight] at hhigh
    have hbound := normalised_bound hwi hwj (a := (ts.map (bytes cfg i)).sum)
      (b := (ts.map (bytes cfg j)).sum) (f := max (s.queue.weight cfg i) cfg.maxpkt - 1)
      (g := max (s.queue.weight cfg j) cfg.maxpkt - 1) (by linarith) (by linarith)
    rwa [Int.cast_sub, Int.cast_sub, Int.cast_one] at hbound

/-- Class 0 has no queue. The weights of the classes 1 and 2 are 1 and 3. -/
def debtClasses : CBQConfig (Fin 3) where
  cls c :=
    { hasQueue := c != 0
      lender := none
      permitBorrowing := false
      allotment := if c = 0 then 5 / 9 else if c = 1 then 1 / 9 else 3 / 9
      maxidle := 1
      extradelay := 0
      pri := 0
      level := if c = 0 then 2 else 1 }
  depth _ := 0
  depth_lt _ _ h := by simp at h
  eligible := .ancestors
  wrr := true
  bandwidth := 8
  maxpkt := 3
  enque _ ps p := ps ++ [p]
  enque_sublist := three_classes_append

def debtQueue : CBQSystem (Fin 3) where
  queue := ([0, 1, 2].foldlM (fun (q : CBQueue (Fin 3)) c => q.insertClass debtClasses c)
    {}).toOption.getD {}

def debtPacket : Packet := { ptype := .other 0, size := 3 }

namespace CBQSystem

open CBQueue

instance (s : CBQSystem (Fin 3)) (x : ℚ × CBQEvent (Fin 3)) :
    Decidable ((sized debtClasses).Enabled s x) :=
  inferInstanceAs (Decidable (s.Enabled debtClasses x ∧ Sized debtClasses x.2))

theorem debtQueue_reachable : (sized debtClasses).Reachable debtQueue := by
  have hok : ([0, 1, 2].foldlM (fun (q : CBQueue (Fin 3)) c => q.insertClass debtClasses c)
      {}).toOption.isSome = true := by decide +kernel
  refine .init ⟨[0, 1, 2], by decide, ?_, rfl, rfl, rfl⟩
  unfold debtQueue
  cases hq : [0, 1, 2].foldlM (fun (q : CBQueue (Fin 3)) c => q.insertClass debtClasses c) {} with
  | error e => simp [hq, Except.toOption] at hok
  | ok q => simp [Except.toOption]

theorem debtQueue_steady : Steady debtClasses 0 debtQueue.queue debtQueue := by
  have hinv : (sized debtClasses).Invariant (Fit debtClasses) := invariant_fit rfl
  have hfit := hinv.reachable debtQueue_reachable
  refine ⟨hfit, rfl, fun n hn => ?_, fun _ => Iff.rfl⟩
  rw [List.eq_nil_iff_forall_not_mem]
  exact fun c hc => hn (hfit.waits.rests.ring n c hc).1.symm

end CBQSystem

instance (c : Fin 3) (s : CBQueue (Fin 3)) (r : CBQueue.Scan (Fin 3)) :
    Decidable (CBQueue.Contends c s r) :=
  inferInstanceAs (Decidable (s.demand c = true ∧ (c, false) ∉ r.asked))

instance (c : Fin 3) (s : CBQueue (Fin 3)) (r : CBQueue.Scan (Fin 3)) :
    Decidable (CBQueue.Solvent debtClasses c s r) :=
  inferInstanceAs (Decidable ((c, true) ∈ r.asked →
    0 < (s.cls c).bytesAlloc + s.weight debtClasses c))

open CBQSystem CBQueue in
/-- One packet of each class, before the first debt is due. -/
theorem wrr_fair_start : ∃ t ts, (sized debtClasses).Path debtQueue ts t ∧
    (ts.map (bytes debtClasses 1)).sum = 3 ∧
    (∀ r ∈ ts, CallsDeque r.2.2 → ∃ p q, r.1.queue.deque debtClasses r.2.1 = .ok (some p, q)) ∧
    |((ts.map (bytes debtClasses 1)).sum / debtQueue.queue.weight debtClasses 1 : ℚ) -
        (ts.map (bytes debtClasses 2)).sum / debtQueue.queue.weight debtClasses 2| ≤
      1 + (max (debtQueue.queue.weight debtClasses 1) 3 - 1) /
          debtQueue.queue.weight debtClasses 1 +
        (max (debtQueue.queue.weight debtClasses 2) 3 - 1) /
          debtQueue.queue.weight debtClasses 2 := by
  obtain ⟨ts, t, hp, ht⟩ := Machine.Path.exists_of_trace (M := sized debtClasses) debtQueue
    [(1, .arrival 1 debtPacket), (1, .arrival 2 debtPacket), (1, .arrival 1 debtPacket),
      (31, .intr), (61, .callback)]
    (fun ts _ => decide ((ts.map (bytes debtClasses 1)).sum = 3) && ts.all fun r =>
      (scanOf debtClasses r).all fun v => decide (∀ c, c ≠ 0 →
        Contends c r.1.queue v ∧ Solvent debtClasses c r.1.queue v)) (by decide +kernel)
  rw [Bool.and_eq_true, decide_eq_true_iff, List.all_eq_true] at ht
  obtain ⟨hsum, hall⟩ := ht
  have hmeets : ∀ r ∈ ts, ∀ v, scanOf debtClasses r = some v → ∀ c, c ≠ 0 →
      Contends c r.1.queue v ∧ Solvent debtClasses c r.1.queue v := by
    intro r hr v hv
    have hr' := hall r hr
    rw [hv] at hr'
    exact of_decide_eq_true hr'
  obtain ⟨hreturns, hfair⟩ := wrr_fair debtClasses rfl debtQueue_reachable hp
    debtQueue_steady.only (i := 1) (by decide +kernel)
    fun r hr v hv => (hmeets r hr v hv 1 (by decide)).1
  exact ⟨t, ts, hp, hsum, hreturns, hfair 2 (by decide +kernel) (by decide)
    (fun r hr v hv => (hmeets r hr v hv 2 (by decide)).1) (by decide +kernel) (by decide +kernel)
    (fun r hr v hv => (hmeets r hr v hv 1 (by decide)).2)
    fun r hr v hv => (hmeets r hr v hv 2 (by decide)).2⟩

end Ns2XPass
