import Mathlib.Algebra.Order.Group.Abs
import Ns2XPass.Queue.Quantum

/-! # Fairness of deficit round robin

Flows are given their quanta in turn, so the bytes of two flows that always have
packets stay close to each other, and a flow that comes back is given a whole
quantum first, unless a drop has taken its last packet on its turn.
-/

namespace Ns2XPass

namespace DRR

variable {α : Type} [DecidableEq α] {ip : α → IpHeader} {max : ℤ} {s s' : DRR α} {p : α}
  {b c f g : ℕ} {ps : List α} {contents : ℕ → List α} {as : List ℕ} {v : ℤ}

/-! ## Whole runs -/

/-- The runs in which no drop takes the last packet of the flow that has its turn. -/
def sparing (ip : α → IpHeader) (max : ℤ) : Machine (DRR α) (QueueCall α) FlowError :=
  (machine ip max).restrict (Spares ip)

instance (ip : α → IpHeader) (max : ℤ) (s : DRR α) (x : QueueCall α) :
    Decidable ((sparing ip max).Enabled s x) :=
  inferInstanceAs (Decidable (s.Enabled ip max x ∧ s.Spares ip x))

theorem invariant_level :
    (sparing ip max).Invariant fun s => ∃ contents as, Holds ip max s contents as ∧
      Level max s as where
  init := by
    rintro s ⟨buckets, blimit, quantum, mask, memory, hb, hlim, hq, rfl⟩
    refine ⟨fun _ => [], [], ⟨FlowQueues.holds_empty memory, ⟨RingLinks.spells_nil, rfl, by simp⟩,
      hb, hlim, hq, fun _ _ h => absurd h List.not_mem_nil, fun _ _ h => absurd h List.not_mem_nil,
      fun _ => rfl, by simp, by simp, rfl⟩, ⟨?_, ?_, ?_⟩⟩
    · exact fun b hb => absurd hb Bool.false_ne_true
    · exact fun b hb => absurd hb List.not_mem_nil
    · exact fun b hb => absurd hb List.not_mem_nil
  step := by
    rintro s x s' ⟨contents, as, h, hl⟩ ⟨he, hsp⟩ hs
    change s.step ip x = .ok s' at hs
    cases x with
    | enque p =>
      obtain ⟨qs, s₁, contents', as', hr, h', hl', -⟩ := h.enque hl he hsp
      rw [DRR.step, hr] at hs
      obtain rfl : s₁ = s' := Except.ok.inj hs
      exact ⟨contents', as', h', hl'⟩
    | deque =>
      by_cases hne : as = []
      · subst hne
        rw [DRR.step, h.deque_nil] at hs
        obtain rfl : s = s' := Except.ok.inj hs
        exact ⟨contents, [], h, hl⟩
      · obtain ⟨p, c, ps, s₁, as', -, hr, -, h', hl', -⟩ := h.deque hl hne
        rw [DRR.step, hr] at hs
        obtain rfl : s₁ = s' := Except.ok.inj hs
        exact ⟨_, as', h', hl'⟩

omit [DecidableEq α] in
/-- A flow that is due before another one does not have its turn. -/
theorem Holds.turn_eq_false_of_due (h : Holds ip max s contents as) (hl : Level max s as)
    (ho : Ahead f g (s.due as)) : s.turn f = false := by
  rw [Bool.eq_false_iff]
  intro ht
  have hcurr := hl.turn f ht
  rw [h.onRing.head] at hcurr
  obtain ⟨bs, rfl⟩ := List.head?_eq_some_iff.mp hcurr
  rw [due, if_pos ht] at ho
  obtain ⟨hf, hd⟩ := List.nodup_cons.mp h.onRing.spells.nodup
  refine Ahead.not_last ?_ ho
  rw [← List.concat_eq_append]
  exact hd.concat hf

omit [DecidableEq α] in
theorem Holds.owes_bound (h : Holds ip max s contents as) (hl : Level max s as)
    (ho : s.Owes as f g v) : -max < v ∧ v < s.quantum + max := by
  have hq := h.quantum
  have hbound : ∀ b ∈ as, 0 ≤ s.deficitCounter b ∧ s.deficitCounter b < max + s.quantum := by
    intro b hb
    have := hl.upper b hb
    refine ⟨hl.lower b hb, ?_⟩
    split at this <;> omega
  have hf : f ∈ as := mem_due.mp (ho.elim (·.1.mem_left) (·.1.mem_right))
  have hg : g ∈ as := mem_due.mp (ho.elim (·.1.mem_right) (·.1.mem_left))
  have hbf := hbound f hf
  have hbg := hbound g hg
  rcases ho with ⟨ho, rfl⟩ | ⟨ho, rfl⟩
  · have := hl.upper f hf
    rw [h.turn_eq_false_of_due hl ho] at this
    simp only [Bool.false_eq_true, if_false] at this
    omega
  · have := hl.upper g hg
    rw [h.turn_eq_false_of_due hl ho] at this
    simp only [Bool.false_eq_true, if_false] at this
    omega

/-- The potential of two flows that always have packets. -/
def Balance (ip : α → IpHeader) (max quantum : ℤ) (f g : ℕ) (s : DRR α) (v : ℤ) : Prop :=
  ∃ contents as, Holds ip max s contents as ∧ Level max s as ∧ s.quantum = quantum ∧
    s.Owes as f g v

theorem Balance.step {x : QueueCall α} {q : ℤ} (hb : Balance ip max q f g s v)
    (hf : s.contents f ≠ [] ∧ s.contents g ≠ []) (hf' : s'.contents f ≠ [] ∧ s'.contents g ≠ [])
    (he : s.Enabled ip max x) (hsp : s.Spares ip x) (hs : s.step ip x = .ok s') :
    Balance ip max q f g s' (v + (bytes ip f (s, x) - bytes ip g (s, x))) := by
  obtain ⟨contents, as, h, hl, hq, ho⟩ := hb
  have hmem : ∀ {t : DRR α} {cs bs}, Holds ip max t cs bs → ∀ b, t.contents b ≠ [] → b ∈ bs := by
    intro t cs bs ht b hne
    rw [ht.contents_eq] at hne
    exact (ht.onRing.mem b).mpr hne
  cases x with
  | enque p =>
    obtain ⟨qs, s₁, contents', as', hr, h', hl', hq', -, -, ho'⟩ := h.enque hl he hsp
    rw [DRR.step, hr] at hs
    obtain rfl : s₁ = s' := Except.ok.inj hs
    refine ⟨contents', as', h', hl', hq'.trans hq, ?_⟩
    rw [bytes, bytes, sub_zero, add_zero]
    exact ho' f g v (hmem h f hf.1) (hmem h g hf.2) (hmem h' f hf'.1) (hmem h' g hf'.2) ho
  | deque =>
    have hne : as ≠ [] := List.ne_nil_of_mem (hmem h f hf.1)
    obtain ⟨p, c, ps, s₁, as', -, hr, -, h', hl', hq', -, ho'⟩ := h.deque hl hne
    rw [DRR.step, hr] at hs
    obtain rfl : s₁ = s' := Except.ok.inj hs
    exact ⟨_, as', h', hl', hq'.trans hq,
      ho' f g v (hmem h' f hf'.1) (hmem h' g hf'.2) ho⟩

/-! ## First visits -/

/-- The visits of the loop of `deque`, each with the bytes that the flow has. -/
def visitsFrom : ℕ → DRR α → List (ℕ × ℤ)
  | 0, _ => []
  | n + 1, s =>
    match s.curr with
    | none => []
    | some c =>
      let s := s.grant c
      (c, s.deficitCounter c) :: match (s.drr.queue c).head with
        | none => []
        | some p => if s.size p ≤ s.deficitCounter c then [] else visitsFrom n (s.pass c)

def visits (r : DRR α × QueueCall α) : List (ℕ × ℤ) :=
  match r.2 with
  | .enque _ => []
  | .deque => if r.1.bytecnt = 0 then [] else visitsFrom r.1.steps r.1

/-- The bytes that a flow has at each of its visits on a path. -/
def visitsTo (f : ℕ) (ts : List (DRR α × QueueCall α)) : List ℤ :=
  ts.flatMap fun r => ((visits r).filter (·.1 = f)).map (·.2)

/-- A flow without any bytes that does not have its turn. -/
def Fresh (s : DRR α) (f : ℕ) : Prop := s.turn f = false ∧ s.deficitCounter f = 0

omit [DecidableEq α] in
theorem Fresh.grant (hf : s.Fresh f) (hc : f ≠ c) : (s.grant c).Fresh f := by
  refine ⟨?_, ?_⟩
  · rw [grant_turn, Function.update_of_ne hc]
    exact hf.1
  · rw [grant_deficit, Function.update_of_ne hc]
    exact hf.2

/-- The first visit of the loop to a fresh flow gives it a quantum, and until then it stays
fresh. -/
theorem Holds.visitsFrom (h : Holds ip max s contents as) (hf : s.Fresh f) (n : ℕ) :
    (∃ vs, (DRR.visitsFrom n s).filter (·.1 = f) = (f, s.quantum) :: vs) ∨
      (DRR.visitsFrom n s).filter (·.1 = f) = [] ∧
        ∀ p s', DRR.serveFrom n s = .ok (p, s') → s'.Fresh f := by
  induction n generalizing s as with
  | zero => exact .inr ⟨rfl, fun p s' hs => by simp [DRR.serveFrom] at hs⟩
  | succ n ih =>
    cases as with
    | nil =>
      have hcurr : s.curr = none := h.onRing.head
      exact .inr ⟨by simp [DRR.visitsFrom, hcurr], fun p s' hs => by
        simp [DRR.serveFrom, hcurr] at hs⟩
    | cons c as =>
      have hcurr : s.curr = some c := h.onRing.head
      obtain ⟨p, ps, hps⟩ := List.exists_cons_of_ne_nil ((h.onRing.mem c).mp List.mem_cons_self)
      have hhead : ((s.grant c).drr.queue c).head = some p := by
        rw [(h.grant c).queues.head_eq, hps]
        rfl
      simp only [DRR.visitsFrom, hcurr, hhead, grant_size]
      by_cases hcf : c = f
      · subst hcf
        left
        rw [List.filter_cons_of_pos (by simp), grant_deficit, Function.update_self, hf.1, hf.2]
        simp
      · rw [List.filter_cons_of_neg (by simpa using hcf)]
        have hg := hf.grant (Ne.symm hcf)
        rw [serveFrom_succ h hps]
        split
        · refine .inr ⟨rfl, fun q s' hs => ?_⟩
          obtain ⟨s'', hr, -, hdef, hturn, -⟩ := (h.grant c).serve hps
          rw [hr] at hs
          obtain rfl : s'' = s' := congrArg Prod.snd (Except.ok.inj hs)
          refine ⟨?_, ?_⟩
          · rw [hturn]
            split
            · rw [Function.update_of_ne (Ne.symm hcf)]
              exact hg.1
            · exact hg.1
          · rw [hdef, Function.update_of_ne (Ne.symm hcf)]
            exact hg.2
        · have hpass : ((s.grant c).pass c).Fresh f :=
            ⟨(Function.update_of_ne (Ne.symm hcf) _ _).trans hg.1, hg.2⟩
          have hq : ((s.grant c).pass c).quantum = s.quantum := grant_quantum s c
          rw [← hq]
          exact ih (h.grant c).pass hpass

/-- On a path the first visit to a fresh flow gives it a quantum. -/
theorem Fresh.visitsTo {ts : List (DRR α × QueueCall α)} {t : DRR α} (hf : s.Fresh f)
    (hp : (sparing ip max).Path s ts t)
    (hs : ∃ contents as, Holds ip max s contents as ∧ Level max s as)
    (hthrough : Machine.Throughout (fun s => s.contents f ≠ []) ts t) :
    ∀ d ∈ (visitsTo f ts).head?, d = s.quantum := by
  induction hp with
  | nil => exact fun d hd => absurd hd (by simp [DRR.visitsTo])
  | @cons s s' t x ts he hx hp ih =>
    have hs' := invariant_level.step s x s' hs he hx
    obtain ⟨contents, as, h, hl⟩ := hs
    have hne : f ∈ as := by
      apply (h.onRing.mem f).mpr
      rw [← h.contents_eq]
      exact hthrough.1 _ List.mem_cons_self
    change s.step ip x = .ok s' at hx
    cases x with
    | enque p =>
      obtain ⟨qs, s₁, contents', as', hr, h', hl', hq', ht', hdef', -⟩ := h.enque hl he.1 he.2
      rw [DRR.step, hr] at hx
      obtain rfl : s₁ = s' := Except.ok.inj hx
      have hmem : f ∈ as' := by
        apply (h'.onRing.mem f).mpr
        rw [← h'.contents_eq]
        exact hp.start_of_throughout hthrough.tail
      have hfresh : s₁.Fresh f := by
        have := hdef' f hmem
        rw [if_pos hne] at this
        exact ⟨by rw [ht']; exact hf.1, by rw [this]; exact hf.2⟩
      rw [← hq']
      exact ih hfresh hs' hthrough.tail
    | deque =>
      have hcons : as ≠ [] := List.ne_nil_of_mem hne
      obtain ⟨p, c, ps, s₁, as', -, hr, hn, h', hl', hq', -⟩ := h.deque hl hcons
      rw [DRR.step, hr] at hx
      obtain rfl : s₁ = s' := Except.ok.inj hx
      have hvisits : visits (s, .deque) = DRR.visitsFrom s.steps s := by
        rw [visits, if_neg (mt h.bytecnt_eq_zero.mp hcons)]
      rw [DRR.visitsTo, List.flatMap_cons, hvisits]
      rcases h.visitsFrom hf s.steps with ⟨vs, hv⟩ | ⟨hv, hfresh⟩
      · rw [hv]
        rintro d hd
        exact (Option.some.inj hd).symm
      · rw [hv, ← hq']
        exact ih (hfresh p s₁ (hn _ le_rfl)) hs' hthrough.tail

/-! ## The claim for one state -/

/-- What holds of a queue after a run in which no drop takes the last packet of the flow that has
its turn. -/
structure Fair (ip : α → IpHeader) (max : ℤ) (s : DRR α) : Prop where
  turn : ∀ b, s.curr ≠ some b → s.turn b = false
  enque : ∀ p, s.Enabled ip max (.enque p) → ∃ r, s.enque ip p = .ok r
  deque : ∃ r, s.deque = .ok r
  /-- From the call that brings a flow its first packet. -/
  firstVisit : ∀ f p s' ts t, s.Enabled ip max (.enque p) → s.Spares ip (.enque p) →
    s.step ip (.enque p) = .ok s' → s.contents f = [] → (sparing ip max).Path s' ts t →
    Machine.Throughout (fun s => s.contents f ≠ []) ts t →
    ∀ d ∈ (visitsTo f ts).head?, d = s.quantum
  close : ∀ f g ts t, (sparing ip max).Path s ts t →
    Machine.Throughout (fun s => s.contents f ≠ [] ∧ s.contents g ≠ []) ts t →
    |(ts.map (bytes ip f)).sum - (ts.map (bytes ip g)).sum| ≤ s.quantum + 2 * max

theorem Holds.enque_ok (h : Holds ip max s contents as) (he : s.Enabled ip max (.enque p)) :
    ∃ r, s.enque ip p = .ok r := by
  obtain ⟨s₁, ha, h₁, -⟩ := h.accept he
  obtain ⟨qs, s', -, -, -, hd, -⟩ := h₁.dropFrom (R := fun _ _ _ _ => True)
    (Int.self_le_toNat _) trivial fun _ _ _ _ _ _ _ _ _ _ _ _ => trivial
  exact ⟨(qs, s'), by simp only [DRR.enque, ha, Bind.bind, Except.bind, hd]⟩

theorem Holds.deque_ok (h : Holds ip max s contents as) (hl : Level max s as) :
    ∃ r, s.deque = .ok r := by
  by_cases hne : as = []
  · subst hne
    exact ⟨_, h.deque_nil⟩
  · obtain ⟨p, c, ps, s', as', -, hr, -⟩ := h.deque hl hne
    exact ⟨_, hr⟩

theorem Holds.fresh (h : Holds ip max s contents as) (hl : Level max s as)
    (he : s.Enabled ip max (.enque p)) (hsp : s.Spares ip (.enque p))
    (hs : s.step ip (.enque p) = .ok s') (hf : s.contents f = []) (hf' : s'.contents f ≠ []) :
    s'.Fresh f ∧ s'.quantum = s.quantum := by
  obtain ⟨qs, s₁, contents', as', hr, h', -, hq', ht', hdef', -⟩ := h.enque hl he hsp
  rw [DRR.step, hr] at hs
  obtain rfl : s₁ = s' := Except.ok.inj hs
  have hnot : f ∉ as := by
    rw [h.onRing.mem, ← h.contents_eq]
    exact not_not.mpr hf
  have hmem : f ∈ as' := by
    rw [h'.onRing.mem, ← h'.contents_eq]
    exact hf'
  have hdef := hdef' f hmem
  rw [if_neg hnot] at hdef
  refine ⟨⟨?_, hdef⟩, hq'⟩
  rw [ht', Bool.eq_false_iff]
  intro ht
  have := (hl.turn f ht).symm.trans h.onRing.head
  exact hnot (List.mem_of_mem_head? (by rw [← this]; rfl))

theorem Holds.close (h : Holds ip max s contents as) (hl : Level max s as)
    {ts : List (DRR α × QueueCall α)} {t : DRR α} (hp : (sparing ip max).Path s ts t)
    (hthrough : Machine.Throughout (fun s => s.contents f ≠ [] ∧ s.contents g ≠ []) ts t) :
    |(ts.map (bytes ip f)).sum - (ts.map (bytes ip g)).sum| ≤ s.quantum + 2 * max := by
  have hstart := hp.start_of_throughout hthrough
  have hf : f ∈ as := by
    rw [h.onRing.mem, ← h.contents_eq]
    exact hstart.1
  have hg : g ∈ as := by
    rw [h.onRing.mem, ← h.contents_eq]
    exact hstart.2
  by_cases hfg : f = g
  · subst hfg
    obtain ⟨p, hp⟩ := List.exists_mem_of_ne_nil _ ((h.onRing.mem f).mp hf)
    have := h.sizes f p hp
    have := h.quantum
    rw [sub_self, abs_zero]
    omega
  · obtain ⟨v, hv⟩ := Owes.exists hf hg hfg
    have hend : Balance ip max s.quantum f g t
        (v + (ts.map fun r => bytes ip f r - bytes ip g r).sum) :=
      hp.potential (E := fun _ _ => True) hthrough (fun _ _ => trivial)
        ⟨contents, as, h, hl, rfl, hv⟩
        fun s x s' n hc hc' _ he hs hR => hR.step hc hc' he.1 he.2 hs
    obtain ⟨contents', as', h', hl', hq', hv'⟩ := hend
    have hsum : (ts.map fun r => bytes ip f r - bytes ip g r).sum =
        (ts.map (bytes ip f)).sum - (ts.map (bytes ip g)).sum := by
      clear hp hthrough hv'
      induction ts with
      | nil => rfl
      | cons r ts ih =>
        simp only [List.map_cons, List.sum_cons, ih]
        omega
    have hlow := h.owes_bound hl hv
    have hhigh := h'.owes_bound hl' hv'
    rw [hsum, hq'] at hhigh
    rw [abs_le]
    omega

end DRR

/-- Packets with even numbers belong to flow 0, those with odd numbers to flow 1. Packet 2 has 600
bytes, packet 1 has 500 bytes, all others have 100 bytes. -/
def drrQueue : DRR ℕ where
  buckets := 16
  blimit := 1000
  quantum := 250
  mask := false
  drr := { memory := fun p =>
    ⟨none, { ptype := .other 0, size := if p = 2 then 600 else if p = 1 then 500 else 100 }⟩ }

def byParity (p : ℕ) : IpHeader := ⟨BitVec.ofNat 32 (p % 2), 0, 0⟩

end Ns2XPass
