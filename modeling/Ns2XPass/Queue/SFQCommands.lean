import Ns2XPass.Library.Except
import Ns2XPass.Queue.SFQ

/-! # Reconfiguring stochastic fair queueing

The table of buckets is allocated by the first call that needs it. The command
that changes the number of buckets checks that all of them are empty and releases
the table.
-/

namespace Ns2XPass

/-- A queue with the number of entries of its table, if there is one. -/
structure SFQObject (α : Type) where
  table : Option ℕ := none
  q : SFQ α

/-- The ways a call can fail: a failed call on the buckets, the exit of `clear`, a read beyond the
table, a table of negative length, a division by zero. -/
inductive SFQExit
  | flow (e : FlowError)
  | occupied
  | beyondTable
  | badLength
  | divisionByZero
  deriving DecidableEq

inductive SFQCommand (α : Type)
  | call (x : QueueCall α)
  | limit (n : ℤ)
  | buckets (n : ℤ)

namespace SFQObject

variable {α : Type} [DecidableEq α] (ip : α → IpHeader) (o : SFQObject α)

/-- A new queue, whose other fields have any values. -/
def created (q : SFQ α) (maxqueue buckets : ℤ) (memory : PacketMemory α) : SFQObject α where
  q := { q with
    maxqueue := maxqueue, buckets := buckets, bucket := { memory := memory }, active := none }

def initsfq : Except SFQExit (SFQObject α) :=
  if o.q.buckets < 0 then .error .badLength
  else if o.q.buckets = 0 then .error .divisionByZero
  else .ok {
    table := some o.q.buckets.toNat
    q := .initsfq o.q.maxqueue o.q.buckets o.q.bucket.memory }

def ready : Except SFQExit (SFQObject α) :=
  match o.table with
  | none => o.initsfq
  | some _ => .ok o

/-- The packet that `enque` drops or `deque` returns. -/
def queueCall (x : QueueCall α) : Except FlowError (Option α × SFQ α) :=
  match x with
  | .enque p => o.q.enque ip p
  | .deque => o.q.deque

/-- The loop of `clear`, `n` entries before the end of the table. Nothing in it changes `i`. -/
def clearFrom (o : SFQObject α) (i : ℤ) : ℕ → ℕ → Except SFQExit Unit
  | 0, _ => if i = 0 then .ok () else .error .beyondTable
  | n + 1, b =>
    if i = 0 then .ok ()
    else if o.q.bucket.pkts b ≠ 0 then .error .occupied
    else clearFrom o i n (b + 1)

def clear : Except SFQExit (SFQObject α) :=
  match o.table with
  | none => .ok o
  | some n => (o.clearFrom o.q.buckets n 0).map fun _ => { o with table := none }

def setLimit (n : ℤ) : Except SFQExit (SFQObject α) :=
  if o.q.buckets = 0 then .error .divisionByZero
  else .ok { o with q := { o.q with maxqueue := n, fairshare := n.tdiv o.q.buckets } }

def setBuckets (n : ℤ) : Except SFQExit (SFQObject α) :=
  o.clear.map fun o => { o with q := { o.q with buckets := n } }

def respond : SFQCommand α → Except SFQExit (Option α × SFQObject α)
  | .call x => do
    let o ← o.ready
    ((o.queueCall ip x).mapError .flow).map fun r => (r.1, { o with q := r.2 })
  | .limit n => (o.setLimit n).map fun o => (none, o)
  | .buckets n => (o.setBuckets n).map fun o => (none, o)

/-- What the queue answers to commands, up to the first that fails. -/
def answers (ip : α → IpHeader) : SFQObject α → List (SFQCommand α) →
    List (Except SFQExit (Option α))
  | _, [] => []
  | o, x :: xs =>
    match o.respond ip x with
    | .ok r => .ok r.1 :: answers ip r.2 xs
    | .error e => [.error e]

def Enabled : SFQCommand α → Prop
  | .call (.enque p) => (∀ n ∈ o.table, ∀ b < n, p ∉ o.q.contents b) ∧ 0 ≤ o.q.bucketIndex ip p
  | .call .deque | .limit _ | .buckets _ => True

instance : ∀ x, Decidable (o.Enabled ip x)
  | .call (.enque _) => inferInstanceAs (Decidable (_ ∧ _))
  | .call .deque | .limit _ | .buckets _ => inferInstanceAs (Decidable True)

def machine (ip : α → IpHeader) : Machine (SFQObject α) (SFQCommand α) SFQExit where
  Init o := ∃ q maxqueue buckets memory, o = created q maxqueue buckets memory
  Enabled o := o.Enabled ip
  step o x := (o.respond ip x).map (·.2)

instance (x : SFQCommand α) : Decidable ((machine ip).Enabled o x) :=
  inferInstanceAs (Decidable (o.Enabled ip x))

/-- Some bucket of the table has packets. -/
def Occupied (o : SFQObject α) : Prop := ∃ n ∈ o.table, ∃ b < n, o.q.bucket.pkts b ≠ 0

/-- An empty queue releases its table and is like a new one with `n` buckets, and an occupied one
stops. -/
def Reconfigures (n : ℤ) : Prop :=
  (¬ o.Occupied → ∃ o', o.setBuckets n = .ok o' ∧ o'.table = none ∧
    ∀ q xs, answers ip o' xs = answers ip (created q o.q.maxqueue n o.q.bucket.memory) xs) ∧
  (o.Occupied → o.setBuckets n = .error .occupied)

variable {ip o} {o' : SFQObject α} {n : ℤ} {m b : ℕ}

/-! ## Queues without a table -/

/-- Queues that have no table and agree in the fields that are read then, or are the same. -/
inductive Alike (o o' : SFQObject α) : Prop
  | same : o = o' → Alike o o'
  | bare : o.table = none → o'.table = none → o.q.maxqueue = o'.q.maxqueue →
      o.q.buckets = o'.q.buckets → o.q.bucket.memory = o'.q.bucket.memory → Alike o o'

omit [DecidableEq α] in
theorem setBuckets_bare (h : o.table = none) :
    o.setBuckets n = .ok { o with q := { o.q with buckets := n } } := by
  have hc : o.clear = .ok o := by
    unfold clear
    split
    · rfl
    · next m hm => exact absurd (hm.symm.trans h) (Option.some_ne_none m)
  rw [setBuckets, hc]
  rfl

/-- Like queues give the same answer to a command, and are alike after it. -/
theorem Alike.respond (ip : α → IpHeader) (h : Alike o o') (x : SFQCommand α) :
    o.respond ip x = o'.respond ip x ∨ ∃ r o₁ o₁', o.respond ip x = .ok (r, o₁) ∧
      o'.respond ip x = .ok (r, o₁') ∧ Alike o₁ o₁' := by
  cases h with
  | same h => exact .inl (h ▸ rfl)
  | bare ht ht' hm hb hmem =>
    cases x with
    | call x =>
      have hready : o.ready = o'.ready := by
        simp only [ready, ht, ht', initsfq, hm, hb, hmem]
      exact .inl (by simp only [SFQObject.respond, hready])
    | limit n =>
      by_cases h0 : o.q.buckets = 0
      · left
        have h0' : o'.q.buckets = 0 := hb ▸ h0
        simp only [SFQObject.respond, setLimit, h0, h0']
        rfl
      · right
        have h0' : o'.q.buckets ≠ 0 := hb ▸ h0
        refine ⟨none, { o with q := { o.q with maxqueue := n, fairshare := n.tdiv o.q.buckets } },
          { o' with q := { o'.q with maxqueue := n, fairshare := n.tdiv o'.q.buckets } }, ?_, ?_,
          .bare ht ht' rfl hb hmem⟩
        · simp only [SFQObject.respond, setLimit, if_neg h0]
          rfl
        · simp only [SFQObject.respond, setLimit, if_neg h0']
          rfl
    | buckets n =>
      right
      refine ⟨none, { o with q := { o.q with buckets := n } },
        { o' with q := { o'.q with buckets := n } }, ?_, ?_, .bare ht ht' hm rfl hmem⟩
      · rw [SFQObject.respond, setBuckets_bare ht]
        rfl
      · rw [SFQObject.respond, setBuckets_bare ht']
        rfl

theorem Alike.answers_eq (h : Alike o o') (xs : List (SFQCommand α)) :
    answers ip o xs = answers ip o' xs := by
  induction xs generalizing o o' with
  | nil => rfl
  | cons x xs ih =>
    obtain hr | ⟨r, o₁, o₁', hr, hr', h'⟩ := h.respond ip x
    · simp only [answers, hr]
    · simp only [answers, hr, hr', ih h']

/-! ## The loop of `clear` -/

omit [DecidableEq α] in
theorem clearFrom_beyond (hi : n ≠ 0) (h : ∀ c, b ≤ c → c < b + m → o.q.bucket.pkts c = 0) :
    o.clearFrom n m b = .error .beyondTable := by
  induction m generalizing b with
  | zero => exact if_neg hi
  | succ m ih =>
    have hb : ¬ o.q.bucket.pkts b ≠ 0 := not_not.mpr (h b le_rfl (by omega))
    rw [clearFrom, if_neg hi, if_neg hb]
    exact ih fun c hc hlt => h c (by omega) (by omega)

omit [DecidableEq α] in
theorem clearFrom_occupied (hi : n ≠ 0) {c : ℕ} (hc : b ≤ c) (hlt : c < b + m)
    (hpkts : o.q.bucket.pkts c ≠ 0) : o.clearFrom n m b = .error .occupied := by
  induction m generalizing b with
  | zero => omega
  | succ m ih =>
    rw [clearFrom, if_neg hi]
    by_cases hb : o.q.bucket.pkts b ≠ 0
    · exact if_pos hb
    · rw [if_neg hb]
      have : b ≠ c := fun he => hb (he ▸ hpkts)
      exact ih (by omega) (by omega)

/-! ## Runs -/

theorem queueCall_buckets {x : QueueCall α} {r : Option α × SFQ α}
    (h : o.queueCall ip x = .ok r) : r.2.buckets = o.q.buckets := by
  cases x with
  | enque p =>
    change o.q.enque ip p = .ok r at h
    unfold SFQ.enque at h
    dsimp only at h
    split at h
    · obtain rfl := Except.ok.inj h
      rfl
    · cases hj : (o.q.bucket.enque p (o.q.which ip p)).join o.q.ring o.q.active
        (o.q.which ip p) with
      | error e => simp [hj, Except.map] at h
      | ok j =>
        obtain rfl := by simpa [hj, Except.map] using h
        rfl
  | deque =>
    change o.q.deque = .ok r at h
    unfold SFQ.deque at h
    split at h
    · obtain rfl := Except.ok.inj h
      rfl
    · next b hb =>
      dsimp only at h
      split at h
      · cases hi : PacketSFQ.idle o.q.ring b (some b) with
        | error e => simp [hi, Except.map] at h
        | ok i =>
          obtain rfl := by simpa [hi, Except.map] using h
          rfl
      · obtain rfl := Except.ok.inj h
        rfl

/-- A table has as many entries as there are buckets, and there are some. -/
def Sized (o : SFQObject α) : Prop := ∀ n ∈ o.table, o.q.buckets = n ∧ n ≠ 0

omit [DecidableEq α] in
theorem Sized.ready (h : Sized o) (hr : o.ready = .ok o') : Sized o' := by
  unfold SFQObject.ready at hr
  split at hr
  · unfold initsfq at hr
    split at hr
    · cases hr
    · split at hr
      · cases hr
      · obtain rfl := Except.ok.inj hr
        rintro n hn
        obtain rfl := Option.some.inj hn
        change o.q.buckets = _ ∧ _
        omega
  · obtain rfl := Except.ok.inj hr
    exact h

theorem Sized.respond (h : Sized o) {x : SFQCommand α} {r : Option α × SFQObject α}
    (hr : o.respond ip x = .ok r) : Sized r.2 := by
  cases x with
  | call x =>
    obtain ⟨o₁, ho, hr⟩ := bind_eq_ok.mp hr
    cases hc : o₁.queueCall ip x with
    | error e => simp [hc, Except.mapError, Except.map] at hr
    | ok r' =>
      obtain rfl := by simpa [hc, Except.mapError, Except.map] using hr
      rintro n hn
      have := h.ready ho n hn
      rwa [← queueCall_buckets hc] at this
  | limit n =>
    simp only [SFQObject.respond, setLimit] at hr
    split at hr
    · cases hr
    · obtain rfl := Except.ok.inj hr
      exact h
  | buckets n =>
    cases hc : o.clear with
    | error e => simp [SFQObject.respond, setBuckets, hc, Except.map] at hr
    | ok o₁ =>
      obtain rfl := by simpa [SFQObject.respond, setBuckets, hc, Except.map] using hr
      have hnone : o₁.table = none := by
        unfold clear at hc
        split at hc
        · next ht =>
          obtain rfl := Except.ok.inj hc
          exact ht
        · next m ht =>
          cases hf : o.clearFrom o.q.buckets m 0 with
          | error e => simp [hf, Except.map] at hc
          | ok u =>
            obtain rfl := by simpa [hf, Except.map] using hc
            rfl
      rintro m hm
      rw [Option.mem_def, hnone] at hm
      cases hm

theorem invariant_sized : (machine ip).Invariant (Sized (α := α)) where
  init := by
    rintro o ⟨q, maxqueue, buckets, memory, rfl⟩ n hn
    cases hn
  step := by
    rintro o x o' h - hs
    cases hr : o.respond ip x with
    | error e => simp [machine, hr, Except.map] at hs
    | ok r =>
      obtain rfl := by simpa [machine, hr, Except.map] using hs
      exact h.respond hr

theorem Sized.reconfigures_iff (h : Sized o) :
    o.Reconfigures ip n ↔ o.table = none ∨ o.Occupied := by
  cases ht : o.table with
  | none =>
    have hocc : ¬ o.Occupied := by
      rintro ⟨m, hm, -⟩
      rw [Option.mem_def, ht] at hm
      cases hm
    simp only [true_or, iff_true]
    refine ⟨fun _ => ⟨_, setBuckets_bare ht, ht, fun q xs => ?_⟩, fun ho => absurd ho hocc⟩
    have hlike : Alike { o with q := { o.q with buckets := n } }
        (created q o.q.maxqueue n o.q.bucket.memory) := .bare ht rfl rfl rfl rfl
    exact hlike.answers_eq xs
  | some m =>
    obtain ⟨hb, hm⟩ := h m ht
    have hi : o.q.buckets ≠ 0 := by omega
    have hset : ∀ e, o.clearFrom o.q.buckets m 0 = .error e → o.setBuckets n = .error e := by
      rintro e he
      simp only [setBuckets, clear, ht, he]
      rfl
    by_cases hocc : o.Occupied
    · obtain ⟨k, hk, c, hc, hpkts⟩ := id hocc
      obtain rfl : m = k := Option.some.inj (ht.symm.trans hk)
      have hstop := hset _ (clearFrom_occupied hi (Nat.zero_le c) (by omega) hpkts)
      exact ⟨fun _ => .inr hocc, fun _ => ⟨fun hn => absurd hocc hn, fun _ => hstop⟩⟩
    · have hempty : ∀ c, 0 ≤ c → c < 0 + m → o.q.bucket.pkts c = 0 := by
        rintro c - hc
        by_contra hne
        exact hocc ⟨m, ht, c, by omega, hne⟩
      have hbeyond := hset _ (clearFrom_beyond hi hempty)
      constructor
      · rintro ⟨hr, -⟩
        obtain ⟨o', ho, -⟩ := hr hocc
        rw [hbeyond] at ho
        cases ho
      · rintro (h | h)
        · cases h
        · exact absurd h hocc

end SFQObject

/-- The number of buckets can be changed when there is no table, and the command stops as it
should when there are packets. Otherwise it runs past the end of the table. -/
theorem sfq_reconfigures_iff {α : Type} [DecidableEq α] (ip : α → IpHeader) {o : SFQObject α}
    (n : ℤ) (h : (SFQObject.machine ip).Reachable o) :
    o.Reconfigures ip n ↔ o.table = none ∨ o.Occupied :=
  (SFQObject.invariant_sized.reachable h).reconfigures_iff

/-- A queue of 16 buckets that has not been used. -/
def unusedSFQ : SFQObject ℕ := .created (.initsfq 0 1 freshMemory) 40 16 freshMemory

theorem unusedSFQ_reachable : (SFQObject.machine evenOdd).Reachable unusedSFQ :=
  .init ⟨_, _, _, _, rfl⟩

theorem sfq_reconfigures_unused : unusedSFQ.Reconfigures evenOdd 8 :=
  (sfq_reconfigures_iff evenOdd 8 unusedSFQ_reachable).mpr (.inl rfl)

/-- After a call of `deque` there is a table, and its buckets are empty. -/
theorem sfq_beyond_table : ∃ o, (SFQObject.machine evenOdd).Reachable o ∧ ¬ o.Occupied ∧
    o.setBuckets 8 = .error .beyondTable := by
  obtain ⟨o, h, hp⟩ := unusedSFQ_reachable.exists_of_exec [.call .deque]
    (fun o => o.table = some 16 ∧ o.q.buckets = 16 ∧ ∀ b ∈ List.range 16, o.q.bucket.pkts b = 0)
    (by decide +kernel)
  obtain ⟨ht, hb, hempty⟩ := of_decide_eq_true hp
  refine ⟨o, h, ?_, ?_⟩
  · rintro ⟨n, hn, b, hlt, hpkts⟩
    obtain rfl : 16 = n := Option.some.inj (ht.symm.trans hn)
    exact hpkts (hempty b (List.mem_range.mpr hlt))
  · have hc := SFQObject.clearFrom_beyond (n := o.q.buckets) (m := 16) (b := 0) (by omega)
      fun c _ hc => hempty c (List.mem_range.mpr (by omega))
    simp only [SFQObject.setBuckets, SFQObject.clear, ht, hc]
    rfl

end Ns2XPass
