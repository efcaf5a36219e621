import Mathlib.Data.Nat.Find
import Mathlib.Tactic.Ring

/-! # Probing a ring of slots

A probe goes round a ring of `n` slots from a start and stops at the first
occupied slot, or when it comes back to a given position. The next probe starts
behind the slot found.
-/

namespace Ns2XPass

/-- The loop `do cl = ms++; ms %= n; while (free(cl) && ms != fail)`, with bounded fuel: the slot
at which it stops, and the next one. -/
def probe (free : ℕ → Bool) (n fail : ℕ) : ℕ → ℕ → Option (ℕ × ℕ)
  | 0, _ => none
  | fuel + 1, ms =>
    let next := (ms + 1) % n
    if free ms ∧ next ≠ fail then probe free n fail fuel next else some (ms, next)

variable {free : ℕ → Bool} {n fail fuel ms k : ℕ}

theorem probe_succ : probe free n fail (fuel + 1) ms =
    if free ms ∧ (ms + 1) % n ≠ fail then probe free n fail fuel ((ms + 1) % n)
    else some (ms, (ms + 1) % n) := rfl

/-- The probe passes the free slots on its way. -/
theorem probe_eq (hfree : ∀ j < k, free ((ms + j) % n) = true)
    (hk : free ((ms + k) % n) = false) (hfail : ∀ j < k, (ms + (j + 1)) % n ≠ fail)
    (hfuel : k < fuel) (hms : ms < n) :
    probe free n fail fuel ms = some ((ms + k) % n, (ms + (k + 1)) % n) := by
  induction k generalizing ms fuel with
  | zero =>
    obtain ⟨fuel, rfl⟩ := Nat.exists_eq_add_of_lt hfuel
    have hstart : (ms + 0) % n = ms := Nat.mod_eq_of_lt hms
    rw [hstart] at hk
    rw [Nat.zero_add, probe_succ, if_neg (by simp [hk]), hstart]
  | succ k ih =>
    obtain ⟨fuel, rfl⟩ := Nat.exists_eq_add_of_lt hfuel
    have hmod : ∀ j, ((ms + 1) % n + j) % n = (ms + (j + 1)) % n := fun j => by
      rw [Nat.mod_add_mod, add_assoc, add_comm 1 j]
    have hfirst : free ms = true := by
      have h := hfree 0 k.succ_pos
      rwa [Nat.add_zero, Nat.mod_eq_of_lt hms] at h
    rw [probe_succ, if_pos ⟨hfirst, hfail 0 k.succ_pos⟩, ih, hmod, hmod]
    · intro j hj
      rw [hmod]
      exact hfree (j + 1) (Nat.succ_lt_succ hj)
    · rwa [hmod]
    · intro j hj
      rw [hmod]
      exact hfail (j + 1) (Nat.succ_lt_succ hj)
    · omega
    · exact Nat.mod_lt _ (Nat.zero_lt_of_lt hms)

/-- Every slot of the ring lies ahead of every other one. -/
theorem exists_ahead {i : ℕ} (hms : ms < n) (hi : i < n) : ∃ d < n, (ms + d) % n = i := by
  have hn : 0 < n := Nat.zero_lt_of_lt hi
  refine ⟨(i + (n - ms)) % n, Nat.mod_lt _ hn, ?_⟩
  rw [Nat.add_mod_mod, show ms + (i + (n - ms)) = i + n by omega, Nat.add_mod_right,
    Nat.mod_eq_of_lt hi]

/-- A probe that starts in the ring does not come back to its start, or to a position outside of
the ring, before it has passed all slots. -/
theorem ahead_ne_fail (hms : ms < n) (hfail : fail = ms ∨ n ≤ fail) {j : ℕ} (hj : j + 1 < n) :
    (ms + (j + 1)) % n ≠ fail := by
  rcases hfail with rfl | hfail
  · intro h
    rcases Nat.lt_or_ge (fail + (j + 1)) n with hlt | hge
    · rw [Nat.mod_eq_of_lt hlt] at h
      omega
    · rw [Nat.mod_eq_sub_mod hge, Nat.mod_eq_of_lt (by omega)] at h
      omega
  · exact (Nat.mod_lt _ (Nat.zero_lt_of_lt hms)).trans_le hfail |>.ne

/-- The first occupied slot ahead is found. -/
theorem probe_found {d : ℕ} (hms : ms < n) (hfail : fail = ms ∨ n ≤ fail) (hd : d < n)
    (ho : free ((ms + d) % n) = false) (hfuel : n ≤ fuel) :
    ∃ k ≤ d, free ((ms + k) % n) = false ∧
      probe free n fail fuel ms = some ((ms + k) % n, (ms + (k + 1)) % n) := by
  have hex : ∃ k, free ((ms + k) % n) = false := ⟨d, ho⟩
  have hle : Nat.find hex ≤ d := Nat.find_le ho
  refine ⟨Nat.find hex, hle, Nat.find_spec hex, probe_eq (fun j hj => ?_) (Nat.find_spec hex)
    (fun j hj => ahead_ne_fail hms hfail (by omega)) (by omega) hms⟩
  simpa using Nat.find_min hex hj

theorem probe_of_occupied {i : ℕ} (hms : ms < n) (hfail : fail = ms ∨ n ≤ fail) (hi : i < n)
    (ho : free i = false) (hfuel : n ≤ fuel) :
    ∃ cl next, probe free n fail fuel ms = some (cl, next) ∧ cl < n ∧ next < n ∧
      free cl = false := by
  have hn : 0 < n := Nat.zero_lt_of_lt hi
  obtain ⟨d, hd, hdi⟩ := exists_ahead hms hi
  obtain ⟨k, -, hk, hp⟩ := probe_found hms hfail hd (hdi ▸ ho) hfuel
  exact ⟨_, _, hp, Nat.mod_lt _ hn, Nat.mod_lt _ hn, hk⟩

/-- A probe from outside of the ring enters it behind a free position. -/
theorem probe_enter (hms : n ≤ ms) (hn : 0 < n) (hfree : free ms = true) :
    probe free n ms (fuel + 1) ms = probe free n ms fuel ((ms + 1) % n) := by
  rw [probe_succ, if_pos ⟨hfree, ((Nat.mod_lt _ hn).trans_le hms).ne⟩]

end Ns2XPass
