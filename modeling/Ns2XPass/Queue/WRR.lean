import Ns2XPass.Library.Ahead
import Ns2XPass.Queue.CBQRuns

/-! # What a weighted round robin visits

A round ends at the first class that has something to send, is permitted and has
credit. The classes it has passed lose their credit, and their debt.
-/

namespace Ns2XPass

namespace CBQueue

variable {C : Type} [DecidableEq C] {cfg : CBQConfig C} {now : ℚ} {s s' : CBQueue C}
  {r r' : Scan C} {c x : C} {cs : List C}

/-- The credit of a class as its visit asks for it. -/
def Scan.credit (cfg : CBQConfig C) (r : Scan C) (c : C) : ℤ :=
  if r.deficit < 2 then r.queue.refilled cfg c else (r.queue.cls c).bytesAlloc

theorem bytes_setBytes (s : CBQueue C) (c x : C) (n : ℤ) :
    ((s.setBytes c n).cls x).bytesAlloc = if x = c then n else (s.cls x).bytesAlloc := by
  rw [setBytes, cls_setCls]
  split <;> rfl

theorem bytes_refill (r : Scan C) (c x : C) : ((r.refill cfg c).queue.cls x).bytesAlloc =
    if x = c then r.credit cfg c else (r.queue.cls x).bytesAlloc := by
  unfold Scan.refill Scan.credit
  split
  · exact bytes_setBytes _ _ _ _
  · split
    · next h => rw [h]
    · rfl

theorem bytes_delayed (s : CBQueue C) (c x : C) :
    ((s.delayed cfg c now).cls x).bytesAlloc = (s.cls x).bytesAlloc := by
  unfold delayed
  split
  · rw [cls_setCls]
    split <;> rfl
  · rfl

/-- A visit that passes the class `c`: it has nothing to send, or is refused, or is short of
credit. -/
structure Passes (cfg : CBQConfig C) (c : C) (r r' : Scan C) : Prop where
  eligible : r'.eligible = none
  bytes : ∀ x, (r'.queue.cls x).bytesAlloc = if x = c then 0 else (r.queue.cls x).bytesAlloc
  why : r.queue.demand c = true → (c, false) ∈ r'.asked ∨
    (c, true) ∈ r'.asked ∧ r.credit cfg c ≤ 0 ∧ r.deficit < 2 ∧ r'.deficit = 1

/-- A visit that has found the class `c`. -/
structure Finds (cfg : CBQConfig C) (c : C) (r r' : Scan C) : Prop where
  eligible : r'.eligible = some c
  demand : r.queue.demand c = true
  bytes : ∀ x, (r'.queue.cls x).bytesAlloc =
    if x = c then r.credit cfg c else (r.queue.cls x).bytesAlloc
  credit : 0 < r.credit cfg c ∨ 1 < r.deficit

theorem wrrVisit_bytes (c : C) (r : Scan C) (he : r.eligible = none) :
    Passes cfg c r (wrrVisit cfg now c r) ∨ Finds cfg c r (wrrVisit cfg now c r) := by
  have hclear : ∀ {q : CBQueue C},
      (∀ x, x ≠ c → (q.cls x).bytesAlloc = (r.queue.cls x).bytesAlloc) →
      ∀ x, ((q.setBytes c 0).cls x).bytesAlloc =
        if x = c then 0 else (r.queue.cls x).bytesAlloc := by
    intro q hq x
    rw [bytes_setBytes]
    split
    · rfl
    · next hx => exact hq x hx
  have hrefill : ∀ x, x ≠ c →
      ((r.refill cfg c).queue.cls x).bytesAlloc = (r.queue.cls x).bytesAlloc := by
    intro x hx
    rw [bytes_refill, if_neg hx]
  rcases wrrVisit_cases cfg now c r with ⟨hd, hv⟩ | ⟨hd, hs, hv⟩ |
    ⟨s, hd, hs, ⟨hb, hv⟩ | ⟨hb, hv⟩⟩
  · left
    rw [hv]
    exact ⟨(refill_eligible r c).trans he, hclear hrefill,
      fun h => absurd (hd.symm.trans h) Bool.false_ne_true⟩
  · left
    rw [hv]
    refine ⟨(refill_eligible r c).trans he, hclear fun x hx => ?_, fun _ => .inl ?_⟩
    · exact (bytes_delayed _ c x).trans (hrefill x hx)
    · exact List.mem_cons_self
  · left
    rw [hv]
    have hcls := (sendPermitted_changes hs).2
    rw [not_or, (hcls c).2, bytes_refill, if_pos rfl] at hb
    refine ⟨(refill_eligible r c).trans he, hclear fun x hx => ?_,
      fun _ => .inr ⟨List.mem_cons_self, not_lt.mp hb.1, by omega, rfl⟩⟩
    exact ((hcls x).2).trans (hrefill x hx)
  · right
    rw [hv]
    have hcls := (sendPermitted_changes hs).2
    rw [(hcls c).2, bytes_refill, if_pos rfl] at hb
    exact ⟨rfl, hd, fun x => ((hcls x).2).trans (bytes_refill r c x), hb⟩

/-- The answers of `send_permitted` are kept. -/
theorem wrrVisit_asked (c : C) (r : Scan C) : r.asked ⊆ (wrrVisit cfg now c r).asked := by
  have ha : (r.refill cfg c).asked = r.asked := refill_asked r c
  rcases wrrVisit_cases cfg now c r with ⟨-, hv⟩ | ⟨-, -, hv⟩ | ⟨s, -, -, ⟨-, hv⟩ | ⟨-, hv⟩⟩
  · rw [hv]
    exact List.Subset.trans (ha ▸ List.Subset.refl _) (List.Subset.refl _)
  all_goals
    rw [hv]
    rw [← ha]
    exact List.subset_cons_self _ _

theorem wrrRing_asked (cs : List C) (r : Scan C) :
    r.asked ⊆ (ringScan (wrrVisit cfg now) cs r).asked := by
  induction cs generalizing r with
  | nil => exact List.Subset.refl _
  | cons c cs ih =>
    unfold ringScan
    dsimp only
    split
    · exact wrrVisit_asked c r
    · exact List.Subset.trans (wrrVisit_asked c r) (ih _)

/-- A class that a round has passed. -/
def Passed (cfg : CBQConfig C) (r r' : Scan C) (x : C) : Prop :=
  r.queue.demand x = true → (x, false) ∈ r'.asked ∨
    (x, true) ∈ r'.asked ∧ r.credit cfg x ≤ 0 ∧ r.deficit < 2 ∧ r'.deficit = 1

/-- What a round over the classes `cs` has made of the scan `r`: it has passed some classes and
found the next one, or it has passed them all. -/
inductive Round (cfg : CBQConfig C) (cs : List C) (r r' : Scan C) : Prop
  | found (pre : List C) (c : C) (post : List C) (split : cs = pre ++ c :: post)
      (eligible : r'.eligible = some c) (credit : 0 < r.credit cfg c ∨ 1 < r.deficit)
      (passed : ∀ x ∈ pre, Passed cfg r r' x)
      (bytes : ∀ x, (r'.queue.cls x).bytesAlloc = if x ∈ pre then 0
        else if x = c then r.credit cfg c else (r.queue.cls x).bytesAlloc)
  | all (eligible : r'.eligible = none) (passed : ∀ x ∈ cs, Passed cfg r r' x)
      (bytes : ∀ x, (r'.queue.cls x).bytesAlloc = if x ∈ cs then 0
        else (r.queue.cls x).bytesAlloc)

omit [DecidableEq C] in
theorem credit_congr (hk : Kept r.queue r'.queue) (hd : r'.deficit < 2 ↔ r.deficit < 2)
    (hb : (r'.queue.cls x).bytesAlloc = (r.queue.cls x).bytesAlloc) :
    r'.credit cfg x = r.credit cfg x := by
  unfold Scan.credit refilled
  simp only [hd, hb, hk.weight]

omit [DecidableEq C] in
theorem Passed.of_visit {r₁ : Scan C} (h : Passed cfg r₁ r' x) (hk : Kept r.queue r₁.queue)
    (hd : r₁.deficit < 2 ↔ r.deficit < 2)
    (hb : (r₁.queue.cls x).bytesAlloc = (r.queue.cls x).bytesAlloc) : Passed cfg r r' x := by
  intro hdem
  rcases h ((hk.demand x).trans hdem) with ha | ⟨ha, hc, hlt, hone⟩
  · exact .inl ha
  · exact .inr ⟨ha, (credit_congr hk hd hb).symm.trans_le hc, hd.mp hlt, hone⟩

theorem wrrRing_round (cs : List C) (r : Scan C) (he : r.eligible = none) (hnd : cs.Nodup) :
    Round cfg cs r (ringScan (wrrVisit cfg now) cs r) := by
  induction cs generalizing r with
  | nil => exact .all he (by simp) (by simp [ringScan])
  | cons c cs ih =>
    obtain ⟨hc, hnd⟩ := List.nodup_cons.mp hnd
    have hv : Passes cfg c r (wrrVisit cfg now c r) ∨ Finds cfg c r (wrrVisit cfg now c r) :=
      wrrVisit_bytes c r he
    have hk : Kept r.queue (wrrVisit cfg now c r).queue := (visits_wrrVisit c r he).kept
    have hdef := wrrVisit_deficit cfg now c r
    have hask : (wrrVisit cfg now c r).asked ⊆
        (ringScan (wrrVisit cfg now) cs (wrrVisit cfg now c r)).asked := wrrRing_asked cs _
    have hdef₂ := wrrRing_deficit cfg now cs (wrrVisit cfg now c r)
    unfold ringScan
    generalize wrrVisit cfg now c r = r₁ at hv hk hdef hask hdef₂
    have hlt : r₁.deficit < 2 ↔ r.deficit < 2 := by omega
    rcases hv with hp | hf
    · simp only [hp.eligible, Option.isSome_none, Bool.false_eq_true, if_false]
      have hthis : Passed cfg r (ringScan (wrrVisit cfg now) cs r₁) c := by
        intro hdem
        rcases hp.why hdem with ha | ⟨ha, hcr, hl, hone⟩
        · exact .inl (hask ha)
        · exact .inr ⟨hask ha, hcr, hl, by omega⟩
      have hold : ∀ x, x ∈ cs → (r₁.queue.cls x).bytesAlloc = (r.queue.cls x).bytesAlloc := by
        intro x hx
        rw [hp.bytes, if_neg]
        rintro rfl
        exact hc hx
      cases ih r₁ hp.eligible hnd with
      | found pre d post split eligible credit passed bytes =>
        have hmem : ∀ x ∈ pre, x ∈ cs := fun x hx => split ▸ List.mem_append_left _ hx
        have hd : d ∈ cs := split ▸ List.mem_append_right _ List.mem_cons_self
        have hcd : r₁.credit cfg d = r.credit cfg d := credit_congr hk hlt (hold d hd)
        refine .found (c :: pre) d post (by rw [split]; rfl) eligible ?_ ?_ fun x => ?_
        · rw [← hcd]
          omega
        · intro x hx
          rcases List.mem_cons.mp hx with rfl | hx
          · exact hthis
          · exact (passed x hx).of_visit hk hlt (hold x (hmem x hx))
        · rw [bytes, hcd, hp.bytes]
          by_cases hxc : x = c
          · subst hxc
            have h₁ : x ∉ pre := fun h => hc (hmem x h)
            have h₂ : x ≠ d := fun h => hc (h ▸ hd)
            simp [h₁, h₂]
          · simp [hxc]
      | all eligible passed bytes =>
        refine .all eligible ?_ fun x => ?_
        · intro x hx
          rcases List.mem_cons.mp hx with rfl | hx
          · exact hthis
          · exact (passed x hx).of_visit hk hlt (hold x hx)
        · rw [bytes, hp.bytes]
          by_cases hxc : x = c
          · subst hxc
            simp
          · simp [hxc]
    · simp only [hf.eligible, Option.isSome_some, if_true]
      refine .found [] c cs rfl hf.eligible hf.credit (by simp) fun x => ?_
      rw [hf.bytes]
      simp

/-! ## The only populated priority -/

/-- The rounds at a priority: one, or a second one after the first was short of credit. -/
theorem wrrRounds_cases (he : r.eligible = none) (hnd : cs.Nodup)
    (h : wrrRounds cfg now cs 2 r = .ok r') :
    Round cfg cs r r' ∧ (r'.eligible = none → r'.deficit ≠ 1) ∨
      ∃ r₁, Round cfg cs r r₁ ∧ r₁.eligible = none ∧ Kept r.queue r₁.queue ∧
        Round cfg cs { r₁ with deficit := 2 } r' ∧ r₁.asked ⊆ r'.asked := by
  unfold wrrRounds at h
  have hround : Round cfg cs r (ringScan (wrrVisit cfg now) cs r) := wrrRing_round cs r he hnd
  have hkept := (wrrRing_outcome cfg now cs r he).kept
  generalize ringScan (wrrVisit cfg now) cs r = r₁ at h hround hkept
  by_cases hf : r₁.eligible.isSome = true
  · simp only [hf, if_true] at h
    obtain rfl := Except.ok.inj h
    exact .inl ⟨hround, fun hn => by simp [hn] at hf⟩
  · have he₁ : r₁.eligible = none := by simpa using hf
    by_cases hd : r₁.deficit = 1
    · simp only [hf, hd, if_true, if_false, Bool.false_eq_true] at h
      have hround₂ : Round cfg cs { r₁ with deficit := 2 }
          (ringScan (wrrVisit cfg now) cs { r₁ with deficit := 2 }) :=
        wrrRing_round cs _ he₁ hnd
      have hask : r₁.asked ⊆ (ringScan (wrrVisit cfg now) cs { r₁ with deficit := 2 }).asked :=
        wrrRing_asked cs { r₁ with deficit := 2 }
      have hdef₂ := wrrRing_deficit cfg now cs { r₁ with deficit := 2 }
      unfold wrrRounds at h
      generalize ringScan (wrrVisit cfg now) cs { r₁ with deficit := 2 } = r₂
        at h hround₂ hask hdef₂
      have hr₂ : r₂ = r' := by
        have hne : ¬ r₂.deficit = 1 := by
          rcases hdef₂ with hd₂ | ⟨hlt, -⟩
          · rw [hd₂]
            exact OfNat.ofNat_ne_one 2
          · exact absurd hlt (Nat.lt_irrefl 2)
        simp only [hne, if_false, ite_self] at h
        exact Except.ok.inj h
      exact .inr ⟨r₁, hround, he₁, hkept, hr₂ ▸ hround₂, hr₂ ▸ hask⟩
    · simp only [hf, hd, if_false, Bool.false_eq_true] at h
      obtain rfl := Except.ok.inj h
      exact .inl ⟨hround, fun _ => hd⟩

/-- A class that has something to send and is permitted on every visit is passed only for want of
credit. -/
theorem Round.short (h : Round cfg cs r r') (hx : x ∈ cs) (hd : r.queue.demand x = true)
    (ha : (x, false) ∉ r'.asked) (he : r'.eligible = none) :
    (x, true) ∈ r'.asked ∧ r.credit cfg x ≤ 0 ∧ r.deficit < 2 ∧ r'.deficit = 1 := by
  cases h with
  | found pre c post split eligible => simp [he] at eligible
  | all eligible passed bytes => exact (passed x hx hd).resolve_left ha

/-- While a class has something to send and is permitted on every visit, a class is found. -/
theorem wrrRounds_found (he : r.eligible = none) (hnd : cs.Nodup)
    (h : wrrRounds cfg now cs 2 r = .ok r') (hx : x ∈ cs) (hd : r.queue.demand x = true)
    (ha : (x, false) ∉ r'.asked) : r'.eligible.isSome = true := by
  rw [Option.isSome_iff_ne_none]
  intro hn
  rcases wrrRounds_cases he hnd h with ⟨hr, hdef⟩ | ⟨r₁, hr₁, he₁, hk, hr, hask⟩
  · exact hdef hn (hr.short hx hd ha hn).2.2.2
  · have hs := hr.short hx ((hk.demand x).trans hd) ha hn
    exact absurd hs.2.2.1 (Nat.lt_irrefl 2)

/-- If it also has credit when it is visited, the first round finds a class, and does not pass this
one. -/
theorem wrrRounds_first (he : r.eligible = none) (hdef : r.deficit = 0) (hnd : cs.Nodup)
    (h : wrrRounds cfg now cs 2 r = .ok r') (hx : x ∈ cs) (hd : r.queue.demand x = true)
    (ha : (x, false) ∉ r'.asked) (hc : (x, true) ∈ r'.asked → 0 < r.credit cfg x) :
    ∃ pre c post, cs = pre ++ c :: post ∧ r'.eligible = some c ∧ 0 < r.credit cfg c ∧
      (∀ y, r.queue.demand y = true → (y, false) ∉ r'.asked →
        ((y, true) ∈ r'.asked → 0 < r.credit cfg y) → y ∉ pre) ∧
      ∀ y, (r'.queue.cls y).bytesAlloc = if y ∈ pre then 0
        else if y = c then r.credit cfg c else (r.queue.cls y).bytesAlloc := by
  rcases wrrRounds_cases he hnd h with ⟨hr, hone⟩ | ⟨r₁, hr₁, he₁, -, -, hask⟩
  · cases hr with
    | found pre c post split eligible credit passed bytes =>
      refine ⟨pre, c, post, split, eligible, credit.resolve_right (by omega), ?_, bytes⟩
      intro y hdy hay hcy hy
      obtain ⟨hay', hle, -⟩ := (passed y hy hdy).resolve_left hay
      exact absurd (hcy hay') (not_lt.mpr hle)
    | all eligible passed bytes =>
      obtain ⟨-, -, -, hshort⟩ := (passed x hx hd).resolve_left ha
      exact absurd hshort (hone eligible)
  · obtain ⟨hax, hle, -⟩ := hr₁.short hx hd (fun h => ha (hask h)) he₁
    exact absurd (hc (hask hax)) (not_lt.mpr hle)

theorem scanPrios_empty (is : List ℕ) (h : ∀ i ∈ is, r.queue.active i = []) :
    scanPrios cfg now is r = .ok r := by
  induction is with
  | nil => rfl
  | cons i is ih =>
    unfold scanPrios
    rw [if_pos (h i List.mem_cons_self)]
    exact ih fun j hj => h j (List.mem_cons_of_mem i hj)

/-- A scan visits the only populated priority. -/
theorem scanPrios_only {k : ℕ} (is : List ℕ) (hnd : is.Nodup) (hk : k ∈ is)
    (he : r.eligible = none) (hne : r.queue.active k ≠ [])
    (ho : ∀ i, i ≠ k → r.queue.active i = []) :
    scanPrios cfg now is r = scanPrio cfg now k r := by
  induction is with
  | nil => simp at hk
  | cons i is ih =>
    obtain ⟨hi, hnd⟩ := List.nodup_cons.mp hnd
    unfold scanPrios
    by_cases hik : i = k
    · subst hik
      obtain ⟨r₁, hr₁, h₁⟩ := scanPrio_outcome cfg now i r he
      rw [if_neg hne, hr₁]
      by_cases hf : r₁.eligible.isSome = true
      · exact if_pos hf
      · refine (if_neg hf).trans (scanPrios_empty is fun j hj => ?_)
        rw [h₁.kept.active]
        exact ho j fun hji => hi (hji ▸ hj)
    · rw [if_pos (ho i hik)]
      exact ih hnd ((List.mem_cons.mp hk).resolve_left (Ne.symm hik))

/-- The scan of a `WRR_CBQueue` whose only populated priority is `k`. -/
theorem Rests.scan_only (h : Rests cfg s) (hw : cfg.wrr = true) {k : ℕ}
    (ho : ∀ i, i ≠ k → s.active i = []) (hne : s.active k ≠ []) (hs : s.scan cfg now = .ok r) :
    wrrRounds cfg now (s.active k) 2 { queue := s } = .ok r := by
  obtain ⟨c, hc⟩ := List.exists_mem_of_ne_nil _ hne
  have hk := (h.ring k c hc).2
  unfold scan at hs
  rwa [scanPrios_only _ List.nodup_range (List.mem_range.mpr (by omega)) rfl hne ho, scanPrio,
    if_pos hw] at hs

end CBQueue

end Ns2XPass
