import Mathlib.Data.List.Perm.Basic
import Ns2XPass.Library.Except
import Ns2XPass.Queue.CBQScan

/-! # What wakes a class-based queue

A queue that is blocked waits for its own event or for the link. One that is not
blocked holds packets only of classes that may not borrow, and these wait for the
next arrival.
-/

namespace Ns2XPass

namespace CBQueue

variable {C : Type} [DecidableEq C] {cfg : CBQConfig C} {now : ℚ} {s s' : CBQueue C}
  {r : Scan C} {c : C} {as : List C} {p : Packet} {ps : List Packet} {found : Bool}

/-! ## Sending a packet -/

theorem dropWhile_ne {pre post : List C} (h : c ∉ pre) :
    (pre ++ c :: post).dropWhile (· ≠ c) = c :: post := by
  rw [List.dropWhile_append_of_pos, List.dropWhile_cons_of_neg (by simp)]
  intro x hx
  exact decide_eq_true fun hxc => h (hxc ▸ hx)

theorem takeWhile_ne {pre post : List C} (h : c ∉ pre) :
    (pre ++ c :: post).takeWhile (· ≠ c) = pre := by
  rw [List.takeWhile_append_of_pos, List.takeWhile_cons_of_neg (by simp), List.append_nil]
  intro x hx
  exact decide_eq_true fun hxc => h (hxc ▸ hx)

theorem peersOf_eq {pre post : List C} (h : c ∉ pre) :
    peersOf c (pre ++ c :: post) = post ++ pre ++ [c] := by
  rw [peersOf, dropWhile_ne h, takeWhile_ne h, List.tail_cons]

theorem ringFrom_eq {pre post : List C} (h : c ∉ pre) :
    ringFrom c (pre ++ c :: post) = c :: post ++ pre := by
  rw [ringFrom, dropWhile_ne h, takeWhile_ne h]

theorem peersOf_perm (h : c ∈ as) : (peersOf c as).Perm as := by
  obtain ⟨pre, post, rfl, hpre⟩ := List.eq_append_cons_of_mem h
  rw [peersOf_eq hpre, List.append_assoc]
  have hrot : (post ++ (pre ++ [c])).Perm (pre ++ [c] ++ post) := List.perm_append_comm
  simpa using hrot

theorem ringFrom_perm (h : c ∈ as) : (ringFrom c as).Perm as := by
  obtain ⟨pre, post, rfl, hpre⟩ := List.eq_append_cons_of_mem h
  rw [ringFrom_eq hpre]
  exact List.perm_append_comm

theorem updateOne_bytes (s : CBQueue C) (d x : C) :
    ((s.updateOne cfg d now p).cls x).bytesAlloc = (s.cls x).bytesAlloc := by
  rw [updateOne, cls_setCls]
  split <;> rfl

theorem update_bytes (s : CBQueue C) (c x : C) (p : Packet) :
    ((s.update cfg c now p).cls x).bytesAlloc = (s.cls x).bytesAlloc := by
  have h : ∀ (ds : List C) (s : CBQueue C),
      ((ds.foldl (fun s d => s.updateOne cfg d now p) s).cls x).bytesAlloc =
        (s.cls x).bytesAlloc := by
    intro ds
    induction ds with
    | nil => exact fun s => rfl
    | cons d ds ih => exact fun s => (ih _).trans (updateOne_bytes s d x)
  exact h _ s

omit [DecidableEq C] in
theorem toplevelDeparture_ok (cfg : CBQConfig C) (now : ℚ) (h : s.lastLender.isSome) :
    ∃ s', s.toplevelDeparture cfg c now = .ok s' ∧ s'.cls = s.cls := by
  obtain ⟨d, hd⟩ := Option.isSome_iff_exists.mp h
  unfold toplevelDeparture
  rw [hd]
  dsimp only
  split
  · split
    · exact ⟨_, rfl, rfl⟩
    · exact ⟨_, rfl, rfl⟩
  · exact ⟨_, rfl, rfl⟩

theorem update_lastLender (s : CBQueue C) (c : C) (p : Packet) :
    (s.update cfg c now p).lastLender = s.lastLender := by
  have h : ∀ (ds : List C) (s : CBQueue C),
      (ds.foldl (fun s d => s.updateOne cfg d now p) s).lastLender = s.lastLender := by
    intro ds
    induction ds with
    | nil => exact fun s => rfl
    | cons d ds ih => exact fun s => ih _
  exact h _ s

/-- Accounting for a packet cannot fail once a lender is known, and leaves the credits alone. -/
theorem account_ok (cfg : CBQConfig C) (now : ℚ) (h : s.lastLender.isSome) :
    ∃ s', s.account cfg c now p = .ok s' ∧ Kept s s' ∧
      ∀ x, (s'.cls x).bytesAlloc = (s.cls x).bytesAlloc := by
  unfold account
  dsimp only
  split
  · have hl : (s.update cfg c now p).lastLender.isSome := by rwa [update_lastLender]
    obtain ⟨s', hs, hcls⟩ := toplevelDeparture_ok cfg now hl (c := c)
    refine ⟨s', hs, (Kept.update s c p).trans (Kept.toplevelDeparture hs), fun x => ?_⟩
    rw [hcls, update_bytes]
  · exact ⟨_, rfl, Kept.update s c p, fun x => update_bytes s c x p⟩

/-- The class `c` has sent the packet `p` of its queue. -/
structure Sent (cfg : CBQConfig C) (s : CBQueue C) (c : C) (p : Packet) (ps : List Packet)
    (found : Bool) (s' : CBQueue C) : Prop where
  pendingPkt : s'.pendingPkt = some p
  blocked : s'.blocked = true
  unblockOnResume : s'.unblockOnResume = s.unblockOnResume
  maxprio : s'.maxprio = s.maxprio
  M : s'.M = s.M
  sub : s'.sub = Function.update s.sub c { s.sub c with packets := ps }
  /-- The ring goes on with the next class, or with `c` if it has credit left. -/
  active : ∃ again : Bool, s'.active = Function.update s.active (cfg.cls c).pri
      ((if again then ringFrom c else peersOf c) (s.active (cfg.cls c).pri)) ∧
    (cfg.wrr = true → found = true → (again = true ↔ 0 < (s'.cls c).bytesAlloc))
  /-- In a `WRR_CBQueue` the credit pays for the packet. -/
  bytes : cfg.wrr = true → found = true → ∀ x, (s'.cls x).bytesAlloc =
    if x = c ∧ 0 < (s.cls c).bytesAlloc then (s.cls c).bytesAlloc - p.size else (s.cls x).bytesAlloc
  unfound : found = false → s'.cls = s.cls

theorem sub_setSub (s : CBQueue C) (c d : C) (f : SubQueue → SubQueue) :
    (s.setSub c f).sub d = if d = c then f (s.sub d) else s.sub d := by
  unfold setSub
  by_cases h : d = c
  · subst h
    rw [if_pos rfl]
    exact Function.update_self ..
  · rw [if_neg h]
    exact Function.update_of_ne h _ _

/-- A sub-queue hands its first packet over. -/
theorem resumeSub_cons (hp : s.pendingPkt = none) (hps : (s.sub c).packets = p :: ps) :
    s.resumeSub c = .ok { s.setSub c (fun q => { q with packets := ps }) with
      blocked := true, pendingPkt := some p } := by
  unfold resumeSub recv
  rw [hps]
  dsimp only
  rw [show (s.setSub c fun q => { q with packets := ps }).pendingPkt = none from hp]

theorem sendPlain_ok (hp : s.pendingPkt = none) (hps : (s.sub c).packets = p :: ps)
    (hl : found = true → s.lastLender.isSome) (hw : cfg.wrr = false) :
    ∃ s', s.sendPlain cfg c now found = .ok s' ∧ Sent cfg s c p ps found s' := by
  have hr : (s.turnRing cfg c (peersOf c)).resumeSub c = .ok { (s.turnRing cfg c
      (peersOf c)).setSub c (fun q => { q with packets := ps }) with
      blocked := true, pendingPkt := some p } := resumeSub_cons hp hps
  unfold sendPlain
  rw [hr]
  cases found with
  | false =>
    refine ⟨_, rfl, ⟨rfl, rfl, rfl, rfl, rfl, rfl, ⟨false, rfl, ?_⟩, ?_, fun _ => rfl⟩⟩
    · exact fun h => absurd (hw.symm.trans h) Bool.false_ne_true
    · exact fun h => absurd (hw.symm.trans h) Bool.false_ne_true
  | true =>
    obtain ⟨s', hs, hk, -⟩ := account_ok cfg now (p := p) (c := c)
      (s := { (s.turnRing cfg c (peersOf c)).setSub c (fun q => { q with packets := ps }) with
        blocked := true, pendingPkt := some p }) (hl rfl)
    refine ⟨s', hs, ⟨hk.pendingPkt, hk.blocked, hk.unblockOnResume, hk.maxprio, hk.M, hk.sub,
      ⟨false, hk.active, ?_⟩, ?_, fun h => by simp at h⟩⟩
    · exact fun h => absurd (hw.symm.trans h) Bool.false_ne_true
    · exact fun h => absurd (hw.symm.trans h) Bool.false_ne_true

theorem spend_bytes (s : CBQueue C) (c x : C) (p : Packet) : ((s.spend c p).cls x).bytesAlloc =
    if x = c ∧ 0 < (s.cls c).bytesAlloc then (s.cls c).bytesAlloc - p.size
    else (s.cls x).bytesAlloc := by
  unfold spend
  by_cases hb : 0 < (s.cls c).bytesAlloc
  · rw [if_pos hb, setBytes, cls_setCls]
    by_cases hx : x = c <;> simp [hx, hb]
  · rw [if_neg hb, if_neg fun h => hb h.2]

theorem kept_spend (s : CBQueue C) (c : C) (p : Packet) : Kept s (s.spend c p) := by
  unfold spend
  split
  · exact Kept.setBytes s c _
  · exact Kept.refl s

theorem spend_lastLender (s : CBQueue C) (c : C) (p : Packet) :
    (s.spend c p).lastLender = s.lastLender := by
  unfold spend
  split <;> rfl

theorem sendWrr_ok (hp : s.pendingPkt = none) (hps : (s.sub c).packets = p :: ps)
    (hl : found = true → s.lastLender.isSome) :
    ∃ s', s.sendWrr cfg c now found = .ok s' ∧ Sent cfg s c p ps found s' := by
  unfold sendWrr
  rw [resumeSub_cons hp hps]
  cases found with
  | false =>
    exact ⟨_, rfl, ⟨rfl, rfl, rfl, rfl, rfl, rfl, ⟨false, rfl, fun _ h => by simp at h⟩,
      fun _ h => by simp at h, fun _ => rfl⟩⟩
  | true =>
    generalize hu : ({ s.setSub c (fun q => { q with packets := ps }) with
      blocked := true, pendingPkt := some p } : CBQueue C) = u
    have hcls : u.cls = s.cls := by rw [← hu]; rfl
    have hlu : (u.spend c p).lastLender.isSome := by
      rw [spend_lastLender, ← hu]
      exact hl rfl
    obtain ⟨s', hs, hk, hb⟩ := account_ok cfg now hlu (p := p) (c := c)
    have hku := (kept_spend u c p).trans hk
    have hbytes : ∀ x, (s'.cls x).bytesAlloc = if x = c ∧ 0 < (s.cls c).bytesAlloc then
        (s.cls c).bytesAlloc - p.size else (s.cls x).bytesAlloc := by
      intro x
      rw [hb, spend_bytes, hcls]
    refine ⟨s'.turnRing cfg c (if decide (0 < ((u.spend c p).cls c).bytesAlloc) = true
      then ringFrom c else peersOf c), ?_, ?_⟩
    · have hpend : u.pendingPkt = some p := by rw [← hu]
      simp only [Bind.bind, Except.bind, hpend, hs]
    · exact {
        pendingPkt := hku.pendingPkt.trans (by rw [← hu])
        blocked := hku.blocked.trans (by rw [← hu])
        unblockOnResume := hku.unblockOnResume.trans (by rw [← hu]; rfl)
        maxprio := hku.maxprio.trans (by rw [← hu]; rfl)
        M := hku.M.trans (by rw [← hu]; rfl)
        sub := hku.sub.trans (by rw [← hu]; rfl)
        active := by
          refine ⟨decide (0 < ((u.spend c p).cls c).bytesAlloc), ?_, fun _ _ => ?_⟩
          · have hact : s'.active = s.active := hku.active.trans (by rw [← hu]; rfl)
            unfold turnRing
            rw [hact]
          · refine decide_eq_true_iff.trans ?_
            rw [← hb]
            rfl
        bytes := fun _ _ => hbytes
        unfound := fun h => by simp at h }

/-- The class that a scan has chosen sends its first packet. -/
theorem sendFrom_ok (hc : r.chosen = some c) (hp : r.queue.pendingPkt = none)
    (hps : (r.queue.sub c).packets = p :: ps)
    (hl : r.eligible.isSome = true → r.queue.lastLender.isSome) :
    ∃ s', sendFrom cfg now r = .ok s' ∧ Sent cfg r.queue c p ps r.eligible.isSome s' := by
  unfold sendFrom
  rw [hc]
  dsimp only
  split
  · exact sendWrr_ok hp hps hl
  · next hw => exact sendPlain_ok hp hps hl (by simpa using hw)

/-! ## The queue between events -/

/-- What holds of the queue between events. -/
structure Rests (cfg : CBQConfig C) (s : CBQueue C) : Prop where
  pendingPkt : s.pendingPkt = none
  resumes : s.unblockOnResume = true
  subs : ∀ c, (s.sub c).blocked = true
  ring : ∀ i c, c ∈ s.active i → (cfg.cls c).pri = i ∧ i ≤ s.maxprio
  nodup : ∀ i, (s.active i).Nodup
  queued : ∀ c, s.demand c = true → c ∈ s.active (cfg.cls c).pri

omit [DecidableEq C] in
theorem demand_iff : s.demand c = true ↔ (s.sub c).packets ≠ [] := by
  unfold demand
  cases (s.sub c).packets <;> simp

/-- The rings do not change but for turning. -/
theorem Sent.perm (hs : Sent cfg s c p ps found s') (hc : c ∈ s.active (cfg.cls c).pri) (i : ℕ) :
    (s'.active i).Perm (s.active i) := by
  obtain ⟨again, hact, -⟩ := hs.active
  rw [hact]
  by_cases hi : i = (cfg.cls c).pri
  · subst hi
    rw [Function.update_self]
    cases again with
    | true => exact ringFrom_perm hc
    | false => exact peersOf_perm hc
  · rw [Function.update_of_ne hi]

theorem Rests.sent (h : Rests cfg s) (hs : Sent cfg s c p ps found s')
    (hps : (s.sub c).packets = p :: ps) : Rests cfg { s' with pendingPkt := none } := by
  have hperm := hs.perm (h.queued c (demand_iff.mpr (by simp [hps])))
  exact {
    pendingPkt := rfl
    resumes := hs.unblockOnResume.trans h.resumes
    subs := fun d => by
      change (s'.sub d).blocked = true
      rw [hs.sub]
      by_cases hd : d = c
      · subst hd
        rw [Function.update_self]
        exact h.subs d
      · rw [Function.update_of_ne hd]
        exact h.subs d
    ring := fun i d hd => by
      have hr := h.ring i d ((hperm i).mem_iff.mp hd)
      exact ⟨hr.1, hr.2.trans (le_of_eq hs.maxprio.symm)⟩
    nodup := fun i => (hperm i).nodup_iff.mpr (h.nodup i)
    queued := fun d hd => by
      apply (hperm _).mem_iff.mpr
      apply h.queued
      rw [demand_iff] at hd ⊢
      change (s'.sub d).packets ≠ [] at hd
      rw [hs.sub] at hd
      by_cases hdc : d = c
      · subst hdc
        simp [hps]
      · rwa [Function.update_of_ne hdc] at hd }

omit [DecidableEq C] in
theorem Rests.kept (h : Rests cfg s) (hk : Kept s s') : Rests cfg s' where
  pendingPkt := hk.pendingPkt.trans h.pendingPkt
  resumes := hk.unblockOnResume.trans h.resumes
  subs c := by rw [hk.sub]; exact h.subs c
  ring i c hc := by rw [hk.maxprio]; exact h.ring i c (hk.active ▸ hc)
  nodup i := by rw [hk.active]; exact h.nodup i
  queued c hc := by rw [hk.active]; exact h.queued c ((hk.demand c).symm.trans hc)

/-- What a scan makes of the queue, and what `deque` does after it. -/
structure Dequeued (cfg : CBQConfig C) (now : ℚ) (s : CBQueue C) (r : Scan C) (o : Option Packet)
    (s' : CBQueue C) : Prop where
  scan : s.scan cfg now = .ok r
  outcome : Outcome cfg now (fun c => ∃ i : ℕ, i ≤ s.maxprio ∧ c ∈ s.active i) False
    { queue := s } r
  deque : s.deque cfg now = .ok (o, s')
  rests : Rests cfg s'
  sends : (r.chosen = none ∧ o = none ∧ Kept s s') ∨
    ∃ c p ps t, r.chosen = some c ∧ (s.sub c).packets = p :: ps ∧ o = some p ∧
      Sent cfg r.queue c p ps r.eligible.isSome t ∧ s' = { t with pendingPkt := none }

theorem deque_of_sendFrom (hs : s.scan cfg now = .ok r) (ht : sendFrom cfg now r = .ok s') :
    s.deque cfg now = .ok (s'.pendingPkt, { s' with pendingPkt := none }) := by
  simp only [deque, hs, ht, Bind.bind, Except.bind]

/-- `deque` succeeds. -/
theorem Rests.deque (h : Rests cfg s) (now : ℚ) :
    ∃ r o s', Dequeued cfg now s r o s' := by
  obtain ⟨r, hr, ho⟩ := scan_outcome cfg now s
  have hrest : Rests cfg r.queue := h.kept ho.kept
  cases hc : r.chosen with
  | none =>
    have hsend : sendFrom cfg now r = .ok r.queue := by rw [sendFrom, hc]
    have hkept : Kept s { r.queue with pendingPkt := none } :=
      { ho.kept with pendingPkt := h.pendingPkt.symm }
    refine ⟨r, none, { r.queue with pendingPkt := none }, hr, ho, ?_, h.kept hkept,
      .inl ⟨hc, rfl, hkept⟩⟩
    rw [deque_of_sendFrom hr hsend, hrest.pendingPkt]
  | some c =>
    have hd : s.demand c = true := by
      rcases ho.found with he | ⟨d, -, he, hd, -⟩
      · rcases ho.first with hf | ⟨d, -, hf, hd⟩
        · simp [Scan.chosen, he, hf] at hc
        · obtain rfl : d = c := by simpa [Scan.chosen, he, hf] using hc
          exact hd
      · obtain rfl : d = c := by simpa [Scan.chosen, he] using hc
        exact hd
    obtain ⟨p, ps, hps⟩ := List.exists_cons_of_ne_nil (demand_iff.mp hd)
    have hps' : (r.queue.sub c).packets = p :: ps := by rw [ho.kept.sub, hps]
    have hl : r.eligible.isSome = true → r.queue.lastLender.isSome := by
      intro he
      rcases ho.found with hn | ⟨d, -, -, -, hl⟩
      · simp [hn] at he
      · exact hl
    have hsend : ∃ t, sendFrom cfg now r = .ok t ∧ Sent cfg r.queue c p ps r.eligible.isSome t :=
      sendFrom_ok hc hrest.pendingPkt hps' hl
    obtain ⟨t, ht, hsent⟩ := hsend
    refine ⟨r, some p, { t with pendingPkt := none }, hr, ho, ?_, hrest.sent hsent hps',
      .inr ⟨c, p, ps, t, hc, hps, rfl, hsent, rfl⟩⟩
    rw [deque_of_sendFrom hr ht, hsent.pendingPkt]

/-- A scan that chooses no class has refused those with something to send, and they may not
borrow. -/
theorem Dequeued.refused {o : Option Packet} (hq : Rests cfg s) (h : Dequeued cfg now s r o s')
    (hc : r.chosen = none) (hd : s.demand c = true) :
    cfg.mayBorrow c = false ∧ now ≤ (s.cls c).undertime := by
  have hn : r.eligible = none ∧ r.first = none := by
    unfold Scan.chosen at hc
    cases he : r.eligible <;> simp_all
  have hmem := hq.queued c hd
  have hring := hq.ring _ c hmem
  obtain ⟨hb, hu⟩ := h.outcome.refused hn.1 c ⟨_, hring.2, hmem⟩ hd
  refine ⟨?_, not_lt.mp hu⟩
  cases hm : cfg.mayBorrow c with
  | false => rfl
  | true =>
    have := hb hm
    rw [hn.2] at this
    simp at this

/-! ## Setting up -/

/-- The queue after the classes `cs` have been inserted. -/
structure SetUp (cfg : CBQConfig C) (cs : List C) (s : CBQueue C) : Prop where
  cls : ∀ c, (s.cls c).bytesAlloc = 0
  sub : ∀ c, s.sub c = {}
  pendingPkt : s.pendingPkt = none
  blocked : s.blocked = false
  resumes : s.unblockOnResume = true
  ring : ∀ i c, c ∈ s.active i → c ∈ cs ∧ (cfg.cls c).pri = i ∧ i ≤ s.maxprio
  nodup : ∀ i, (s.active i).Nodup

omit [DecidableEq C] in
theorem SetUp.setM {cs : List C} (h : SetUp cfg cs s) (hs : setM cfg s = .ok s') :
    SetUp cfg cs s' := by
  unfold CBQueue.setM at hs
  split at hs
  · obtain rfl := Except.ok.inj hs
    exact { h with }
  · simp at hs

omit [DecidableEq C] in
theorem SetUp.addallot {cs : List C} {i : ℕ} {v : ℚ} (h : SetUp cfg cs s)
    (hs : s.addallot cfg i v = .ok s') : SetUp cfg cs s' := by
  unfold CBQueue.addallot at hs
  split at hs
  · have hset : SetUp cfg cs { s with alloc := Function.update s.alloc i (s.alloc i + v) } :=
      { h with }
    exact hset.setM hs
  · obtain rfl := Except.ok.inj hs
    exact h

omit [DecidableEq C] in
theorem SetUp.joinRing {cs : List C} (h : SetUp cfg cs s) (hc : c ∉ cs) :
    SetUp cfg (c :: cs) (s.joinRing cfg c) := by
  have hnew : ∀ i, (s.joinRing cfg c).active i =
      if i = (cfg.cls c).pri then behindFirst c (s.active i) else s.active i := by
    intro i
    unfold CBQueue.joinRing
    by_cases hi : i = (cfg.cls c).pri
    · subst hi
      rw [if_pos rfl]
      exact Function.update_self ..
    · rw [if_neg hi]
      exact Function.update_of_ne hi _ _
  have hnot : ∀ i, c ∉ s.active i := fun i hm => hc (h.ring i c hm).1
  have hmax : s.maxprio ≤ (s.joinRing cfg c).maxprio := le_max_left ..
  refine { h with ring := fun i d hd => ?_, nodup := fun i => ?_ }
  · rw [hnew] at hd
    have hold : d ∈ s.active i → d ∈ c :: cs ∧ (cfg.cls d).pri = i ∧
        i ≤ (s.joinRing cfg c).maxprio := by
      intro hm
      obtain ⟨h₁, h₂, h₃⟩ := h.ring i d hm
      exact ⟨List.mem_cons_of_mem c h₁, h₂, h₃.trans hmax⟩
    split at hd
    · next hi =>
      have hthis : c ∈ c :: cs ∧ (cfg.cls c).pri = i ∧ i ≤ (s.joinRing cfg c).maxprio :=
        ⟨List.mem_cons_self, hi.symm, hi ▸ le_max_right ..⟩
      cases has : s.active i with
      | nil =>
        rw [has] at hd
        obtain rfl := List.mem_singleton.mp hd
        exact hthis
      | cons a as =>
        rw [has] at hd hold
        simp only [behindFirst, List.mem_cons] at hd hold
        rcases hd with hd | rfl | hd
        · simpa using hold (.inl hd)
        · exact hthis
        · simpa using hold (.inr hd)
    · exact hold hd
  · rw [hnew]
    split
    · have hn := h.nodup i
      have hni := hnot i
      cases has : s.active i with
      | nil => simp [behindFirst]
      | cons a as =>
        rw [has] at hn hni
        simp only [behindFirst, List.nodup_cons, List.mem_cons, not_or] at hn hni ⊢
        exact ⟨⟨Ne.symm hni.1, hn.1⟩, hni.2, hn.2⟩
    · exact h.nodup i

omit [DecidableEq C] in
theorem SetUp.insertClass {cs : List C} (h : SetUp cfg cs s) (hc : c ∉ cs)
    (hs : s.insertClass cfg c = .ok s') : SetUp cfg (c :: cs) s' := by
  obtain ⟨s₁, hbase, hs⟩ := bind_eq_ok.mp hs
  have hring : SetUp cfg (c :: cs) (s.schedule cfg c) := by
    unfold schedule
    split
    · exact h.joinRing hc
    · exact { h with ring := fun i d hd =>
        ⟨List.mem_cons_of_mem c (h.ring i d hd).1, (h.ring i d hd).2⟩ }
  have hset : SetUp cfg (c :: cs) s₁ := by
    unfold insertBase at hbase
    split at hbase
    · simp at hbase
    · split at hbase
      · simp at hbase
      · split at hbase
        · simp at hbase
        · obtain ⟨s₂, hadd, hbase⟩ := bind_eq_ok.mp hbase
          split at hbase
          · simp at hbase
          · obtain rfl := Except.ok.inj hbase
            exact { hring.addallot hadd with }
  split at hs
  · have hcnt : SetUp cfg (c :: cs) { s₁ with
        cnt := Function.update s₁.cnt (cfg.cls c).pri (s₁.cnt (cfg.cls c).pri + 1) } :=
      { hset with }
    exact hcnt.setM hs
  · obtain rfl := Except.ok.inj hs
    exact hset

end CBQueue

namespace CBQSystem

open CBQueue

variable {C : Type} [DecidableEq C] {cfg : CBQConfig C} {s s' : CBQSystem C} {now : ℚ}

/-! ## The queue with its link -/

/-- What holds between events. -/
structure Waits (cfg : CBQConfig C) (s : CBQSystem C) : Prop where
  rests : Rests cfg s.queue
  one : s.outstanding ≤ 1
  intr : s.intr = true → s.outstanding = 0
  blocked : s.queue.blocked = true ↔ s.intr = true ∨ s.outstanding = 1
  woken : s.queue.blocked = false → ∀ c, s.queue.demand c = true → cfg.mayBorrow c = false

omit [DecidableEq C] in
theorem setUp_of_foldlM (cs : List C) {ds : List C} {q q' : CBQueue C} (hnd : cs.Nodup)
    (hdisj : ∀ c ∈ cs, c ∉ ds) (h : SetUp cfg ds q)
    (hq : cs.foldlM (fun (q : CBQueue C) c => q.insertClass cfg c) q = .ok q') :
    ∃ es, SetUp cfg es q' := by
  induction cs generalizing ds q with
  | nil =>
    obtain rfl := pure_eq_ok.mp hq
    exact ⟨ds, h⟩
  | cons c cs ih =>
    rw [List.foldlM_cons] at hq
    obtain ⟨q₁, hq₁, hq⟩ := bind_eq_ok.mp hq
    obtain ⟨hc, hnd⟩ := List.nodup_cons.mp hnd
    refine ih hnd (fun d hd => ?_) (h.insertClass (hdisj c List.mem_cons_self) hq₁) hq
    rw [List.mem_cons, not_or]
    exact ⟨fun hdc => hc (hdc ▸ hd), hdisj d (List.mem_cons_of_mem c hd)⟩

omit [DecidableEq C] in
theorem Init.setUp (h : s.Init cfg) : ∃ cs, SetUp cfg cs s.queue := by
  obtain ⟨cs, hnd, hq, -⟩ := h
  have hempty : SetUp cfg [] ({} : CBQueue C) :=
    ⟨fun _ => rfl, fun _ => rfl, rfl, rfl, rfl, fun _ _ h => by simp at h, fun _ => List.nodup_nil⟩
  exact setUp_of_foldlM cs hnd (by simp) hempty hq

omit [DecidableEq C] in
theorem rests_of_setUp {cs : List C} {q : CBQueue C} (h : SetUp cfg cs q) : Rests cfg q where
  pendingPkt := h.pendingPkt
  resumes := h.resumes
  subs c := by rw [h.sub]
  ring i c hc := (h.ring i c hc).2
  nodup := h.nodup
  queued c hc := by
    rw [demand_iff, h.sub] at hc
    exact absurd rfl hc

omit [DecidableEq C] in
theorem Init.waits (h : s.Init cfg) : Waits cfg s := by
  obtain ⟨cs, hset⟩ := h.setUp
  obtain ⟨-, -, -, -, hi, ho⟩ := h
  refine ⟨rests_of_setUp hset, by omega, fun _ => ho, ?_, fun _ c hc => ?_⟩
  · simp [hset.blocked, hi, ho]
  · rw [demand_iff, hset.sub] at hc
    exact absurd rfl hc

/-- The parts of the queue that say what is sent next are the same. -/
structure Agree (q q' : CBQueue C) : Prop where
  cls : q'.cls = q.cls
  sub : q'.sub = q.sub
  active : q'.active = q.active
  M : q'.M = q.M

/-- How an event moves the queue. -/
def Moves (cfg : CBQConfig C) (x : ℚ × CBQEvent C) (q q' : CBQueue C) : Prop :=
  match x.2 with
  | .arrival c p => Agree (q.setSub c fun k => { k with packets := cfg.enque c k.packets p }) q'
  | _ => ∃ r o q₁, Dequeued cfg x.1 q r o q₁ ∧ Agree q₁ q'

/-- A step that leaves the queue unblocked has refused every class that has something to send. -/
def Refused (cfg : CBQConfig C) (now : ℚ) (s s' : CBQSystem C) : Prop :=
  s'.queue.blocked = false → ∀ c, s'.queue.demand c = true →
    cfg.mayBorrow c = false ∧ now ≤ (s.queue.cls c).undertime

/-- The queue is resumed as nothing else is going to call it. -/
theorem resume_ok (hr : Rests cfg s.queue) (hi : s.intr = false) (ho : s.outstanding = 0)
    (now : ℚ) : ∃ s', s.resume cfg now = .ok s' ∧ Waits cfg s' ∧ Refused cfg now s s' ∧
      ∃ r o q, Dequeued cfg now s.queue r o q ∧ Agree q s'.queue := by
  obtain ⟨r, o, q, h⟩ := hr.deque now
  unfold resume
  rw [h.deque]
  rcases h.sends with ⟨hc, rfl, hk⟩ | ⟨c, p, ps, t, -, -, rfl, hsent, rfl⟩
  · have href : ∀ c, q.demand c = true →
        cfg.mayBorrow c = false ∧ now ≤ (s.queue.cls c).undertime :=
      fun c hd => h.refused hr hc ((hk.demand c).symm.trans hd)
    refine ⟨_, rfl, ⟨{ h.rests with }, ?_, ?_, ?_, ?_⟩, fun _ => href,
      r, none, q, h, ⟨rfl, rfl, rfl, rfl⟩⟩
    · exact ho.trans_le (Nat.zero_le 1)
    · exact fun _ => ho
    · simp [h.rests.resumes, hi, ho]
    · exact fun _ c hd => (href c hd).1
  · refine ⟨_, rfl, ⟨h.rests, ?_, ?_, ?_, ?_⟩, ?_, r, some p, _, h, ⟨rfl, rfl, rfl, rfl⟩⟩
    · simp [ho]
    · exact fun h => absurd (hi.symm.trans h) Bool.false_ne_true
    · simp [hsent.blocked, ho]
    · exact fun hb => absurd (hb.symm.trans hsent.blocked) Bool.false_ne_true
    · exact fun hb => absurd (hb.symm.trans hsent.blocked) Bool.false_ne_true

theorem recvSub_ok {q : CBQueue C} (hr : Rests cfg q) {c : C} (hc : c ∈ q.active (cfg.cls c).pri)
    (p : Packet) : ∃ q', q.recvSub cfg c p = .ok q' ∧ Rests cfg q' ∧ q'.blocked = q.blocked ∧
      q' = q.setSub c fun k => { k with packets := cfg.enque c k.packets p } := by
  have hsub : ∀ d, ((q.setSub c fun k => { k with packets := cfg.enque c k.packets p }).sub
      d).blocked = true := by
    intro d
    rw [sub_setSub]
    split <;> exact hr.subs d
  refine ⟨q.setSub c fun k => { k with packets := cfg.enque c k.packets p }, ?_, ?_, rfl, rfl⟩
  · unfold recvSub
    rw [if_pos (hsub c)]
  · refine { hr with subs := hsub, queued := fun d hd => ?_ }
    by_cases hdc : d = c
    · subst hdc
      exact hc
    · apply hr.queued d
      rwa [demand, sub_setSub, if_neg hdc] at hd

omit [DecidableEq C] in
theorem toplevelArrival_cls (q : CBQueue C) (c : C) :
    (q.toplevelArrival cfg c now).cls = q.cls := by
  unfold toplevelArrival
  split
  · split
    · rfl
    · split
      · rfl
      · split <;> rfl
  · rfl

theorem Waits.arrive (h : Waits cfg s) {c : C} (hc : c ∈ s.queue.active (cfg.cls c).pri)
    (p : Packet) (now : ℚ) : ∃ s', s.arrive cfg now c p = .ok s' ∧ Waits cfg s' ∧
      s'.queue.blocked = true ∧ Agree (s.queue.setSub c fun k =>
        { k with packets := cfg.enque c k.packets p }) s'.queue := by
  have hk : Kept s.queue
      (if cfg.eligible = .toplevel then s.queue.toplevelArrival cfg c now else s.queue) := by
    split
    · exact Kept.toplevelArrival s.queue c
    · exact Kept.refl _
  have hcls : (if cfg.eligible = .toplevel then s.queue.toplevelArrival cfg c now
      else s.queue).cls = s.queue.cls := by
    split
    · exact toplevelArrival_cls s.queue c
    · rfl
  have hr := h.rests.kept hk
  have hb := hk.blocked
  unfold CBQSystem.arrive
  generalize (if cfg.eligible = .toplevel then s.queue.toplevelArrival cfg c now else s.queue) = q
    at hk hr hb hcls
  obtain ⟨q', hq', hr', hb', heq⟩ := recvSub_ok hr (by rw [hk.active]; exact hc) p
  have hagree : Agree (s.queue.setSub c fun k =>
      { k with packets := cfg.enque c k.packets p }) q' := by
    rw [heq]
    refine ⟨hcls, ?_, hk.active, hk.M⟩
    change Function.update q.sub c _ = Function.update s.queue.sub c _
    rw [hk.sub]
  have hblk : q'.blocked = s.queue.blocked := hb'.trans hb
  simp only [hq', Bind.bind, Except.bind]
  cases hbl : s.queue.blocked with
  | true =>
    rw [hbl] at hblk
    rw [if_pos hblk]
    refine ⟨_, rfl, ⟨hr', h.one, h.intr, ?_, ?_⟩, hblk, hagree⟩
    · have := h.blocked
      rw [hbl] at this
      simpa [hblk] using this
    · exact fun hf => absurd (hf.symm.trans hblk) Bool.false_ne_true
  | false =>
    rw [hbl] at hblk
    have hidle : s.intr = false ∧ s.outstanding = 0 := by
      have hnot := mt h.blocked.mpr (by rw [hbl]; exact Bool.false_ne_true)
      rw [not_or, Bool.not_eq_true] at hnot
      have := h.one
      exact ⟨hnot.1, by omega⟩
    rw [if_neg (by rw [hblk]; exact Bool.false_ne_true)]
    unfold sched
    simp only [hidle.1, Bool.false_eq_true, if_false]
    refine ⟨_, rfl, ⟨{ hr' with }, h.one, fun _ => hidle.2, ?_, ?_⟩, rfl, { hagree with }⟩
    · simp
    · exact fun hf => absurd hf (by simp)

/-- No event fails, and it leaves the queue waiting for its own event or for the link, or without
packets that it could send. -/
theorem Waits.step (h : Waits cfg s) {x : ℚ × CBQEvent C} (he : s.Enabled cfg x) :
    ∃ s', s.step cfg x = .ok s' ∧ Waits cfg s' ∧ Refused cfg x.1 s s' ∧
      Moves cfg x s.queue s'.queue := by
  obtain ⟨t, e⟩ := x
  have hw : Waits cfg { s with clock := t } := { h with }
  cases e with
  | arrival c p =>
    obtain ⟨s', hs, hw', hb, hm⟩ := hw.arrive he.2 p t
    exact ⟨s', hs, hw', fun hf => absurd (hf.symm.trans hb) Bool.false_ne_true, hm⟩
  | intr =>
    obtain ⟨s', hs, hw', href, hm⟩ := resume_ok (s := { s with clock := t, intr := false })
      h.rests rfl (h.intr he.2) t
    exact ⟨s', hs, hw', href, hm⟩
  | callback =>
    have ho : 0 < s.outstanding := he.2
    have hi : s.intr = false := by
      cases hi : s.intr with
      | false => rfl
      | true => rw [h.intr hi] at ho; exact absurd ho (Nat.lt_irrefl 0)
    have hone := h.one
    obtain ⟨s', hs, hw', href, hm⟩ := resume_ok
      (s := { s with clock := t, outstanding := s.outstanding - 1 }) h.rests hi
      (by change s.outstanding - 1 = 0; omega) t
    exact ⟨s', hs, hw', href, hm⟩

theorem invariant_waits : (machine cfg).Invariant (Waits cfg) where
  init _ h := h.waits
  step s x s' h he hs := by
    obtain ⟨s₁, hs₁, hw, -⟩ := h.step he
    obtain rfl := Except.ok.inj (hs₁.symm.trans hs)
    exact hw

/-- What holds of a queue and its link in every run. -/
structure Live (cfg : CBQConfig C) (s : CBQSystem C) : Prop where
  /-- `recv` finds no packet pending, and `intr_` is not scheduled twice. -/
  ok : ∀ x, s.Enabled cfg x → ∃ s', s.step cfg x = .ok s'
  one : s.outstanding ≤ 1
  blocked : s.queue.blocked = true ↔
    (s.intr = true ∧ s.outstanding = 0) ∨ (s.intr = false ∧ s.outstanding = 1)
  woken : ∀ c, s.queue.demand c = true → cfg.mayBorrow c = true → s.queue.blocked = true
  refused : ∀ x s', s.Enabled cfg x → s.step cfg x = .ok s' → Refused cfg x.1 s s'

end CBQSystem

instance three_classes : NeZero 3 := ⟨by decide⟩

theorem three_classes_append (_ : Fin 3) (ps : List Packet) (p : Packet) :
    (ps ++ [p]).Sublist (ps ++ [p]) :=
  List.Sublist.refl _

/-- A flat structure: class 0 has no queue, class 1 may borrow from it, and class 2 may not. -/
def audioClasses : CBQConfig (Fin 3) where
  cls c :=
    { hasQueue := c != 0
      lender := if c = 0 then none else some 0
      permitBorrowing := c == 1
      allotment := if c = 0 then 98 / 100 else if c = 1 then 32 / 100 else 3 / 100
      maxidle := 0
      extradelay := 0
      pri := if c = 0 then 8 else 1
      level := if c = 0 then 2 else 1 }
  depth c := if c = 0 then 0 else 1
  depth_lt c d h := by
    revert h
    revert d
    revert c
    decide
  eligible := .ancestors
  wrr := false
  bandwidth := 8000
  maxpkt := 1000
  enque _ ps p := ps ++ [p]
  enque_sublist := three_classes_append

/-- The queue after its classes have been inserted. -/
def audioQueue : CBQSystem (Fin 3) where
  queue := ([0, 1, 2].foldlM (fun (q : CBQueue (Fin 3)) c => q.insertClass audioClasses c)
    {}).toOption.getD {}

theorem audioQueue_reachable : (CBQSystem.machine audioClasses).Reachable audioQueue := by
  have hok : ([0, 1, 2].foldlM (fun (q : CBQueue (Fin 3)) c => q.insertClass audioClasses c)
      {}).toOption.isSome = true := by decide +kernel
  refine .init ⟨[0, 1, 2], by decide, ?_, rfl, rfl, rfl⟩
  unfold audioQueue
  cases hq : [0, 1, 2].foldlM (fun (q : CBQueue (Fin 3)) c => q.insertClass audioClasses c) {} with
  | error e => simp [hq, Except.toOption] at hok
  | ok q => simp [Except.toOption]

def audioPacket : Packet := { ptype := .other 0, size := 100 }

instance (s : CBQSystem (Fin 3)) (x : ℚ × CBQEvent (Fin 3)) :
    Decidable ((CBQSystem.machine audioClasses).Enabled s x) :=
  inferInstanceAs (Decidable (s.Enabled audioClasses x))

end Ns2XPass
