import Mathlib.Data.List.Flatten
import Ns2XPass.Dccp.Options

/-! # Walks through the options

The bytes of a buffer are those of the options that have been added, one behind
the other. A walk therefore finds these options again.
-/

namespace Ns2XPass

variable {α : Type*} {c : ℕ → α} {j k n m : ℕ} {o o' : DccpOptions} {b : UInt8}
  {l l' pre post : List UInt8} {p : UInt8 × List UInt8} {added rest : List (UInt8 × List UInt8)}

@[simp] theorem length_firstCells : (firstCells c n).length = n := by simp [firstCells]

theorem firstCells_add :
    firstCells c (j + k) = firstCells c j ++ firstCells (fun i => c (j + i)) k := by
  simp [firstCells, List.range_add]

theorem firstCells_update (v : α) :
    firstCells (Function.update c n v) (n + 1) = firstCells c n ++ [v] := by
  rw [firstCells_add]
  congr 1
  · apply List.map_congr_left
    intro i hi
    exact Function.update_of_ne (List.mem_range.mp hi).ne _ _
  · simp [firstCells]

/-- The cells in the middle. -/
theorem firstCells_middle {a d e : List α} (h : firstCells c n = a ++ d ++ e) :
    firstCells (fun i => c (a.length + i)) d.length = d := by
  have hn : n = a.length + d.length + e.length := by
    rw [← length_firstCells (c := c) (n := n), h, List.length_append, List.length_append]
  rw [hn, firstCells_add, firstCells_add] at h
  have hfront := (List.append_inj h (by simp)).1
  exact (List.append_inj hfront (by simp)).2

/-- The bytes of an option. -/
def encode (p : UInt8 × List UInt8) : List UInt8 :=
  if p.1 < singleByteLimit then [p.1] else p.1 :: .ofNat (p.2.length + 2) :: p.2

/-- An option of a small type has no data, and the length of any other one is a byte. -/
structure IsOption (p : UInt8 × List UInt8) : Prop where
  single : p.1 < singleByteLimit → p.2 = []
  length : p.2.length + 2 ≤ optMaxLength

theorem encode_ne_nil : encode p ≠ [] := by
  unfold encode
  split_ifs <;> simp

namespace DccpOptions

/-- More bytes are stored behind the others. -/
structure Extends (o o' : DccpOptions) (l : List UInt8) : Prop where
  contents : o'.contents = o.contents ++ l
  size : o'.size = o.size + l.length
  maxSize : o'.maxSize = o.maxSize

namespace Extends

theorem trans {o₁ : DccpOptions} (h : Extends o o₁ l) (h' : Extends o₁ o' l') :
    Extends o o' (l ++ l') where
  contents := by rw [h'.contents, h.contents, List.append_assoc]
  size := by rw [h'.size, h.size, List.length_append, Nat.add_assoc]
  maxSize := h'.maxSize.trans h.maxSize

theorem push (h : o.size + 1 < 2 ^ 16) : Extends o (o.push b) [b] := by
  have hmod : (o.size + 1) % 2 ^ 16 = o.size + 1 := Nat.mod_eq_of_lt h
  refine ⟨?_, hmod, rfl⟩
  unfold DccpOptions.contents DccpOptions.push
  rw [hmod, firstCells_update]

theorem pushAll (h : o.size + l.length < 2 ^ 16) : Extends o (o.pushAll l) l := by
  induction l generalizing o with
  | nil => exact ⟨(List.append_nil _).symm, rfl, rfl⟩
  | cons b l ih =>
    rw [List.length_cons] at h
    have hb : Extends o (o.push b) [b] := push (by omega)
    exact hb.trans (ih (by rw [hb.size, List.length_singleton]; omega))

end Extends

/-- The bytes of an option with a length. -/
theorem Extends.sized (h : o.size + (l.length + 2) < 2 ^ 16) (hp : ¬ p.1 < singleByteLimit)
    (hl : p.2 = l) :
    Extends o (((o.push p.1).push (.ofNat (l.length + 2))).pushAll l) (encode p) := by
  have h₁ : Extends o (o.push p.1) [p.1] := .push (by omega)
  have hs₁ := h₁.size
  have h₂ : Extends (o.push p.1) ((o.push p.1).push (.ofNat (l.length + 2)))
      [.ofNat (l.length + 2)] := .push (by rw [hs₁, List.length_singleton]; omega)
  have hs₂ := h₂.size
  have hlen : ((o.push p.1).push (.ofNat (l.length + 2))).size + l.length < 2 ^ 16 := by
    rw [hs₂, hs₁, List.length_singleton, List.length_singleton]
    omega
  rw [encode, if_neg hp, hl]
  exact (h₁.trans h₂).trans (.pushAll hlen)

/-- What a call does that adds an option. -/
structure Adds (o : DccpOptions) (r : ℤ × DccpOptions) (p : UInt8 × List UInt8) : Prop where
  result : r.1 = optNoErr
  isOption : IsOption p
  stored : Extends o r.2 (encode p)
  size_le : r.2.size ≤ o.maxSize

theorem addOption_cases (type dataSize : UInt8) (data : ℕ → UInt8) (hmax : o.maxSize < 2 ^ 16) :
    ((o.addOption type data dataSize).1 ≠ optNoErr ∧ (o.addOption type data dataSize).2 = o) ∨
      Adds o (o.addOption type data dataSize) (type, firstCells data dataSize.toNat) := by
  rcases eq_or_ne dataSize 0 with rfl | hne
  · have hdata : firstCells data (0 : UInt8).toNat = [] := rfl
    have hnot : ¬ (0 : UInt8) < 0 := by decide
    unfold addOption
    simp only [if_true, if_neg hnot]
    split_ifs with hsize hfull
    · exact .inl ⟨show optErrSize ≠ _ by decide, rfl⟩
    · exact .inl ⟨show optErrFull ≠ _ by decide, rfl⟩
    · right
      push Not at hsize hfull
      have htype : type < singleByteLimit := by
        by_contra ht
        exact hsize.2.1 (UInt8.not_lt.mp ht)
      have hx : Extends o (o.push type) [type] := .push (by omega)
      have henc : encode (type, firstCells data (0 : UInt8).toNat) = [type] := if_pos htype
      exact ⟨rfl, ⟨fun _ => hdata, show 2 ≤ optMaxLength by decide⟩, henc ▸ hx, hx.size ▸ hfull⟩
  · have hpos : 0 < dataSize := UInt8.pos_iff_ne_zero.mpr hne
    unfold addOption
    simp only [if_neg hne, if_pos hpos]
    split_ifs with hsize hfull
    · exact .inl ⟨show optErrSize ≠ _ by decide, rfl⟩
    · exact .inl ⟨show optErrFull ≠ _ by decide, rfl⟩
    · right
      push Not at hsize hfull
      have htype : ¬ type < singleByteLimit := fun ht => hsize.1 ht hpos
      have hlen : (firstCells data dataSize.toNat).length = dataSize.toNat := length_firstCells
      have hx : Extends o _ (encode (type, firstCells data dataSize.toNat)) :=
        .sized (l := firstCells data dataSize.toNat) (by rw [hlen]; omega) htype rfl
      rw [hlen] at hx
      refine ⟨rfl, ⟨fun ht => absurd ht htype, by rw [hlen]; exact hsize.2.2⟩, hx, ?_⟩
      have hs := hx.size
      rw [encode, if_neg htype, List.length_cons, List.length_cons, hlen] at hs
      exact hs ▸ hfull

theorem addFeatureOption_cases (type featNum dataSize : UInt8) (data : ℕ → UInt8)
    (hmax : o.maxSize < 2 ^ 16) :
    ((o.addFeatureOption type featNum data dataSize).1 ≠ optNoErr ∧
        (o.addFeatureOption type featNum data dataSize).2 = o) ∨
      Adds o (o.addFeatureOption type featNum data dataSize)
        (type, featNum :: firstCells data dataSize.toNat) := by
  unfold addFeatureOption
  dsimp only
  split_ifs with hsize htypes hfull
  · exact .inl ⟨show optErrSize ≠ _ by decide, rfl⟩
  · exact .inl ⟨show optErrType ≠ _ by decide, rfl⟩
  · exact .inl ⟨show optErrFull ≠ _ by decide, rfl⟩
  · right
    push Not at hsize htypes hfull
    have htype : ¬ type < singleByteLimit := by
      have hle : singleByteLimit ≤ optChangeL := by decide
      exact UInt8.not_lt.mpr (UInt8.le_trans hle (UInt8.not_lt.mp htypes.1))
    have hlen : (featNum :: firstCells data dataSize.toNat).length = dataSize.toNat + 1 := by simp
    have hx : Extends o _ (encode (type, featNum :: firstCells data dataSize.toNat)) :=
      .sized (l := featNum :: firstCells data dataSize.toNat) (by rw [hlen]; omega) htype rfl
    rw [hlen] at hx
    refine ⟨rfl, ⟨fun ht => absurd ht htype, by rw [hlen]; exact hsize.2⟩, hx, ?_⟩
    have hs := hx.size
    rw [encode, if_neg htype, List.length_cons, List.length_cons, hlen] at hs
    exact hs ▸ hfull

theorem call_cases (c : OptionCall) (hmax : o.maxSize < 2 ^ 16) :
    ((o.call c).1 ≠ optNoErr ∧ (o.call c).2 = o) ∨ Adds o (o.call c) c.option := by
  cases c with
  | addOption type data dataSize => exact addOption_cases type dataSize data hmax
  | addFeatureOption type featNum data dataSize =>
    exact addFeatureOption_cases type featNum dataSize data hmax

/-- The buffer holds the bytes of the options that have been added. -/
structure Stores (m : ℕ) (o : DccpOptions) (added : List (UInt8 × List UInt8)) : Prop where
  maxSize : o.maxSize = m
  size_le : o.size ≤ m
  contents : o.contents = added.flatMap encode
  isOption : ∀ p ∈ added, IsOption p

/-- What `getOption` should yield. -/
def lookup (added : List (UInt8 × List UInt8)) (type maxSize : UInt8) : ℤ × List UInt8 :=
  match added.find? fun p => p.1 = type with
  | none => (optErrNotFound, [])
  | some p => if p.2.length ≤ maxSize.toNat then (p.2.length, p.2) else (optErrSize, [])

/-! ### Walks -/

/-- The byte of a position. -/
theorem byteAt_eq (h : o.contents = pre ++ b :: post) : o.byteAt pre.length = b := by
  have hcell := firstCells_middle (a := pre) (d := [b]) (e := post) (h.trans (by simp))
  rw [List.length_singleton] at hcell
  exact (List.cons.inj hcell).1

/-- What is found at the position of an option. -/
structure Found (o : DccpOptions) (walker : ℤ) (p : UInt8 × List UInt8) : Prop where
  lt : walker < o.size
  type : o.byteAt walker = p.1
  dataSize : ¬ p.1 < singleByteLimit → o.dataSizeAt walker = p.2.length
  data : ¬ p.1 < singleByteLimit → o.dataAt walker = p.2

theorem found (hp : IsOption p) (h : o.contents = pre ++ encode p ++ post) :
    Found o pre.length p := by
  have hsize : o.size = pre.length + (encode p).length + post.length := by
    rw [← length_firstCells (c := o.options) (n := o.size), ← List.length_append,
      ← List.length_append]
    exact congrArg List.length h
  have hpos := List.length_pos_of_ne_nil (encode_ne_nil (p := p))
  have htype : o.byteAt pre.length = p.1 := by
    unfold encode at h
    split_ifs at h
    · exact byteAt_eq (h.trans (List.append_assoc _ _ _))
    · exact byteAt_eq (h.trans (List.append_assoc _ _ _))
  have hdata : ¬ p.1 < singleByteLimit → o.dataSizeAt pre.length = p.2.length := by
    intro hlim
    rw [encode, if_neg hlim] at h
    have hpre : o.contents = pre ++ [p.1] ++ .ofNat (p.2.length + 2) :: (p.2 ++ post) :=
      h.trans (by simp)
    have hbyte : o.byteAt (pre ++ [p.1]).length = .ofNat (p.2.length + 2) := byteAt_eq hpre
    have hlen := hp.length
    have hmod : (p.2.length + 2) % 2 ^ 8 = p.2.length + 2 :=
      Nat.mod_eq_of_lt (lt_of_le_of_lt hlen (by decide))
    rw [List.length_append, List.length_singleton, Nat.cast_add, Nat.cast_one] at hbyte
    rw [dataSizeAt, hbyte, UInt8.toNat_ofNat', hmod]
    omega
  refine ⟨by omega, htype, hdata, fun hlim => ?_⟩
  have hd := hdata hlim
  rw [encode, if_neg hlim] at h
  have hcells := firstCells_middle (a := pre ++ [p.1, .ofNat (p.2.length + 2)]) (d := p.2)
    (e := post) (h.trans (by simp))
  have hlen : (pre ++ [p.1, UInt8.ofNat (p.2.length + 2)]).length = pre.length + 2 := by simp
  rw [hlen] at hcells
  rw [dataAt, hd]
  exact hcells

theorem nextOption_eq (hp : IsOption p) (h : o.contents = pre ++ encode p ++ post)
    (hc : o.current = pre.length) :
    o.nextOption (.ofNat optMaxLength) =
      ((p.2.length : ℤ), some p, { o with current := (pre ++ encode p).length }) := by
  have hf := o.found hp h
  have hwalk : ¬ o.current = optErrWalk := by
    rw [hc]
    exact fun he => absurd (he.symm ▸ Int.natCast_nonneg _ : 0 ≤ optErrWalk) (by decide)
  have hend : ¬ (o.size : ℤ) ≤ o.current := hc ▸ not_le.mpr hf.lt
  unfold nextOption
  rw [if_neg hwalk, if_neg hend, hc, hf.type]
  by_cases hlim : p.1 < singleByteLimit
  · have hnil := hp.single hlim
    rw [if_pos hlim, encode, if_pos hlim, List.length_append, List.length_singleton, hnil]
    congr 2
    exact congrArg some (Prod.ext rfl hnil.symm)
  · have hfits : (p.2.length : ℤ) ≤ (UInt8.ofNat optMaxLength).toNat := by
      have hlen := hp.length
      have hmax : (UInt8.ofNat optMaxLength).toNat = optMaxLength := by decide
      omega
    rw [if_neg hlim, hf.dataSize hlim, if_pos hfits, hf.data hlim, encode, if_neg hlim]
    simp only [List.length_append, List.length_cons]
    congr 4
    omega

/-- The loop finds the options from the current position on. -/
theorem walkFrom_eq (hp : ∀ p ∈ rest, IsOption p) (h : o.contents = pre ++ rest.flatMap encode)
    (hc : o.current = pre.length) (hn : rest.length < n) :
    walkFrom (.ofNat optMaxLength) n o = some (optErrNotFound, rest) := by
  obtain ⟨n, rfl⟩ := Nat.exists_eq_succ_of_ne_zero (Nat.ne_zero_of_lt hn)
  induction rest generalizing o pre n with
  | nil =>
    have hsize : o.size = pre.length := by
      rw [← length_firstCells (c := o.options) (n := o.size)]
      exact congrArg List.length (h.trans (List.append_nil pre))
    have hwalk : ¬ o.current = optErrWalk := by
      rw [hc]
      exact fun he => absurd (he.symm ▸ Int.natCast_nonneg _ : 0 ≤ optErrWalk) (by decide)
    have hend : (o.size : ℤ) ≤ o.current := by rw [hc, hsize]
    unfold walkFrom nextOption
    rw [if_neg hwalk, if_pos hend]
    rfl
  | cons p rest ih =>
    rw [List.flatMap_cons, ← List.append_assoc] at h
    have hnext := nextOption_eq (hp p List.mem_cons_self) h hc
    rw [List.length_cons] at hn
    obtain ⟨n, rfl⟩ := Nat.exists_eq_succ_of_ne_zero (n := n) (by omega)
    have hrest := @ih { o with current := (pre ++ encode p).length } (pre ++ encode p)
      (fun p' hp' => hp p' (List.mem_cons_of_mem p hp')) h rfl n (by omega)
    have hpos : ¬ ((p.2.length : ℤ) < 0) := by omega
    unfold walkFrom
    rw [hnext]
    dsimp only
    rw [if_neg hpos, hrest]
    rfl

/-- The loop of `getOption` finds the first option of the type from a position on. -/
theorem getFrom_eq {type maxSize : UInt8} (hp : ∀ p ∈ rest, IsOption p)
    (h : o.contents = pre ++ rest.flatMap encode) (hn : rest.length < n) :
    o.getFrom type maxSize n pre.length = some (lookup rest type maxSize) := by
  obtain ⟨n, rfl⟩ := Nat.exists_eq_succ_of_ne_zero (Nat.ne_zero_of_lt hn)
  induction rest generalizing pre n with
  | nil =>
    have hsize : o.size = pre.length := by
      rw [← length_firstCells (c := o.options) (n := o.size)]
      exact congrArg List.length (h.trans (List.append_nil pre))
    have hend : ¬ (pre.length : ℤ) < o.size := by rw [hsize]; exact lt_irrefl _
    unfold getFrom
    rw [if_neg hend]
    rfl
  | cons p rest ih =>
    rw [List.flatMap_cons, ← List.append_assoc] at h
    have hthis := hp p List.mem_cons_self
    have hf := o.found hthis h
    rw [List.length_cons] at hn
    obtain ⟨n, rfl⟩ := Nat.exists_eq_succ_of_ne_zero (n := n) (by omega)
    have hrest := @ih (pre ++ encode p) (fun p' hp' => hp p' (List.mem_cons_of_mem p hp')) h
      n (by omega)
    unfold getFrom lookup
    rw [if_pos hf.lt, hf.type]
    by_cases hlim : p.1 < singleByteLimit
    · have hnil := hthis.single hlim
      have hnext : (pre.length : ℤ) + 1 = (pre ++ encode p).length := by
        rw [encode, if_pos hlim, List.length_append, List.length_singleton, Nat.cast_add,
          Nat.cast_one]
      rw [if_pos hlim, hnext, hrest]
      split_ifs with hty
      · rw [List.find?_cons_of_pos (by simpa using hty)]
        simp [hnil, optNoErr]
      · rw [List.find?_cons_of_neg (by simpa using hty), lookup]
    · have hnext : (pre.length : ℤ) + 2 + p.2.length = (pre ++ encode p).length := by
        rw [encode, if_neg hlim]
        simp only [List.length_append, List.length_cons]
        omega
      rw [if_neg hlim, hf.dataSize hlim, hf.data hlim, hnext, hrest]
      split_ifs with hty hfits
      · rw [List.find?_cons_of_pos (by simpa using hty)]
        exact congrArg some (if_pos (by exact_mod_cast hfits)).symm
      · rw [List.find?_cons_of_pos (by simpa using hty)]
        exact congrArg some (if_neg (by exact_mod_cast hfits)).symm
      · rw [List.find?_cons_of_neg (by simpa using hty), lookup]

theorem length_le_flatMap : rest.length ≤ (rest.flatMap encode).length := by
  induction rest with
  | nil => exact le_rfl
  | cons p rest ih =>
    have hpos := List.length_pos_of_ne_nil (encode_ne_nil (p := p))
    rw [List.flatMap_cons, List.length_append, List.length_cons]
    omega

/-- What a buffer gives back, when some options have been added. -/
structure RoundTrips (o : DccpOptions) (m : ℕ) (added : List (UInt8 × List UInt8)) : Prop where
  size_le : o.size ≤ m
  failed : ∀ c, (o.call c).1 ≠ optNoErr → (o.call c).2 = o
  walk : o.walk = some (optErrNotFound, added)
  getOption : ∀ type maxSize, o.getOption type maxSize = some (lookup added type maxSize)

namespace Stores

theorem length_lt (h : Stores m o added) : added.length < o.size + 1 := by
  have hle := @length_le_flatMap added
  have hlen : o.contents.length = o.size := length_firstCells
  rw [h.contents] at hlen
  omega

theorem roundTrips (h : Stores m o added) (hm : m < 2 ^ 16) : o.RoundTrips m added where
  size_le := h.size_le
  failed c hc := by
    rcases o.call_cases c (h.maxSize ▸ hm) with ⟨-, he⟩ | ha
    · exact he
    · exact absurd ha.result hc
  walk := by
    have hc : o.startOptionWalk.contents = [] ++ added.flatMap encode := h.contents
    exact walkFrom_eq h.isOption hc rfl h.length_lt
  getOption type maxSize := by
    have hc : o.contents = [] ++ added.flatMap encode := h.contents
    exact getFrom_eq h.isOption hc h.length_lt

/-- A call that succeeds adds its option. -/
theorem call (h : Stores m o added) (hm : m < 2 ^ 16) {c : OptionCall}
    (hc : (o.call c).1 = optNoErr) : (o.call c).2.Stores m (added ++ [c.option]) := by
  rcases o.call_cases c (h.maxSize ▸ hm) with ⟨hno, -⟩ | ha
  · exact absurd hc hno
  · refine ⟨ha.stored.maxSize.trans h.maxSize, h.maxSize ▸ ha.size_le, ?_, ?_⟩
    · rw [ha.stored.contents, h.contents, List.flatMap_append, List.flatMap_singleton]
    · intro p hp
      rcases List.mem_append.mp hp with hp | hp
      · exact h.isOption p hp
      · exact List.mem_singleton.mp hp ▸ ha.isOption

end Stores

end DccpOptions

/-- In every run the buffer stores the options that have been added. -/
theorem optionHistory_invariant (hm : m < 2 ^ 16) :
    (optionHistory m).Invariant fun p => p.1.Stores m p.2 where
  init p hi := by
    obtain ⟨⟨memory, ho⟩, hadded⟩ := hi
    rw [ho, hadded]
    exact ⟨Nat.mod_eq_of_lt hm, Nat.zero_le _, rfl, by simp⟩
  step p c p' h _ hs := by
    obtain ⟨hstep, hadded⟩ := (Machine.withHistory_step_iff _).mp hs
    have ho : p'.1 = (p.1.call c).2 := (Except.ok.inj hstep).symm
    rw [hadded, ho]
    split_ifs with hok
    · exact h.call hm hok
    · rw [(h.roundTrips hm).failed c hok]
      exact h

end Ns2XPass
