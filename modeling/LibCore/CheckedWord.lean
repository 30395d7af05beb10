import LibCore.Bytes
import LibCore.Radix

/-!
# Digit Loops on Machine Words

Words of any width with an arithmetic that notices when a result does not fit, and the loops that read a
numeral digit by digit into a word. Such a loop has a test before each step that says whether the numeral would
pass a limit; two forms of the test are in use, and both are exact.

## Main results

* `subRound_eq`, `divRound_eq`: neither test is too strict or too loose, and no step wraps.
* `digitLoop_spec`: a loop with such rounds reads exactly the numerals up to the limit.
-/

open CString Radix

namespace CheckedWord

/-- A result did not fit into a word. -/
inductive Wrapped where
  | wrapped
deriving DecidableEq

/-- What a loop over digits ends with. -/
inductive Scan (w : ℕ) where
  | ok (v : BitVec w)
  | invalid
  | tooLarge
deriving DecidableEq

variable {w : ℕ}

/-! ### Arithmetic -/

def add (a b : BitVec w) : Except Wrapped (BitVec w) :=
  if a.toNat + b.toNat < 2 ^ w then .ok (a + b) else .error .wrapped

def sub (a b : BitVec w) : Except Wrapped (BitVec w) :=
  if b.toNat ≤ a.toNat then .ok (a - b) else .error .wrapped

def mul (a b : BitVec w) : Except Wrapped (BitVec w) :=
  if a.toNat * b.toNat < 2 ^ w then .ok (a * b) else .error .wrapped

/-- `v * base + d`. -/
def push (base v d : BitVec w) : Except Wrapped (BitVec w) := do
  let p ← mul v base
  add p d

/-- A round with the test `v > (limit - d) / base`; `none` where the numeral passes the limit. -/
def subRound (base limit v d : BitVec w) : Except Wrapped (Option (BitVec w)) := do
  let room ← sub limit d
  if v > room / base then .ok none
  else do
    let v ← push base v d
    .ok (some v)

/-- A round with the test `v > limit / base || (v == limit / base && d > limit % base)`. -/
def divRound (base limit v d : BitVec w) : Except Wrapped (Option (BitVec w)) :=
  if v > limit / base ∨ v = limit / base ∧ d > limit % base then .ok none
  else do
    let v ← push base v d
    .ok (some v)

/-- The loop over the bytes of a numeral. -/
def digitLoop (isDigit : UInt8 → Bool) (digit : UInt8 → ℕ)
    (round : BitVec w → BitVec w → Except Wrapped (Option (BitVec w))) :
    BitVec w → Bytes → Except Wrapped (Scan w)
  | v, [] => .ok (.ok v)
  | v, c :: s =>
      if isDigit c then do
        match ← round v (BitVec.ofNat w (digit c)) with
        | none => .ok .tooLarge
        | some v => digitLoop isDigit digit round v s
      else .ok .invalid

/-! ### Rounds -/

variable {base limit v d : BitVec w}

theorem push_eq (h : v.toNat * base.toNat + d.toNat < 2 ^ w) :
    push base v d = .ok (BitVec.ofNat w (v.toNat * base.toNat + d.toNat)) := by
  have hmul : v.toNat * base.toNat < 2 ^ w := (Nat.le_add_right _ _).trans_lt h
  have hprod : (v * base).toNat = v.toNat * base.toNat := by
    rw [BitVec.toNat_mul, Nat.mod_eq_of_lt hmul]
  have hsum : v * base + d = BitVec.ofNat w (v.toNat * base.toNat + d.toNat) := by
    refine BitVec.eq_of_toNat_eq ?_
    rw [BitVec.toNat_add, hprod, BitVec.toNat_ofNat]
  rw [push, mul, if_pos hmul]
  change add (v * base) d = _
  rw [add, hprod, if_pos h, hsum]

/-- A round that goes on exactly as long as the numeral is within the limit. -/
def Exact (base limit : BitVec w) (round : BitVec w → BitVec w → Except Wrapped (Option (BitVec w))) :
    Prop :=
  ∀ v d : BitVec w, d.toNat < base.toNat → round v d =
    .ok (if v.toNat * base.toNat + d.toNat ≤ limit.toNat then
      some (BitVec.ofNat w (v.toNat * base.toNat + d.toNat)) else none)

/-- **The first test is exact**, for limits that no digit passes. -/
theorem subRound_exact (hbase : base.toNat ≤ limit.toNat + 1) : Exact base limit (subRound base limit) := by
  intro v d hd
  have hle : d.toNat ≤ limit.toNat := by omega
  have hroom : (limit - d).toNat = limit.toNat - d.toNat := BitVec.toNat_sub_of_le (BitVec.le_def.mpr hle)
  have htest : v > (limit - d) / base ↔ ¬v.toNat * base.toNat + d.toNat ≤ limit.toNat := by
    have hdiv : (limit.toNat - d.toNat) / base.toNat < v.toNat ↔
      limit.toNat - d.toNat < v.toNat * base.toNat :=
      Nat.div_lt_iff_lt_mul (Nat.zero_lt_of_lt hd)
    rw [gt_iff_lt, BitVec.lt_def, BitVec.toNat_udiv, hroom, hdiv]
    omega
  rw [subRound, sub, if_pos hle]
  change (if v > (limit - d) / base then _ else _) = _
  by_cases hfits : v.toNat * base.toNat + d.toNat ≤ limit.toNat
  · rw [if_neg (mt htest.mp (not_not.mpr hfits)), if_pos hfits, push_eq (hfits.trans_lt limit.isLt)]
    rfl
  · rw [if_pos (htest.mpr hfits), if_neg hfits]

/-- **The second test is exact** -/
theorem divRound_exact : Exact base limit (divRound base limit) := by
  intro v d hd
  have htest : (v > limit / base ∨ v = limit / base ∧ d > limit % base) ↔
      ¬v.toNat * base.toNat + d.toNat ≤ limit.toNat := by
    have hdiv : limit.toNat / base.toNat * base.toNat + limit.toNat % base.toNat = limit.toNat :=
      Nat.div_add_mod' _ _
    have hmod : limit.toNat % base.toNat < base.toNat := Nat.mod_lt _ (Nat.zero_lt_of_lt hd)
    rw [gt_iff_lt, gt_iff_lt, BitVec.lt_def, BitVec.lt_def, ← BitVec.toNat_inj, BitVec.toNat_udiv,
      BitVec.toNat_umod]
    rcases lt_trichotomy v.toNat (limit.toNat / base.toNat) with hlt | heq | hgt
    · have hle := Nat.mul_le_mul_right base.toNat (Nat.succ_le_of_lt hlt)
      rw [Nat.succ_mul] at hle
      omega
    · rw [heq]
      omega
    · have hle := Nat.mul_le_mul_right base.toNat (Nat.succ_le_of_lt hgt)
      rw [Nat.succ_mul] at hle
      omega
  rw [divRound]
  by_cases hfits : v.toNat * base.toNat + d.toNat ≤ limit.toNat
  · rw [if_neg (mt htest.mp (not_not.mpr hfits)), if_pos hfits, push_eq (hfits.trans_lt limit.isLt)]
    rfl
  · rw [if_pos (htest.mpr hfits), if_neg hfits]

/-! ### Loops -/

/-- The number that a numeral behind another one stands for. -/
def readOn (base : ℕ) (digit : UInt8 → ℕ) (n : ℕ) (s : Bytes) : ℕ :=
    s.foldl (fun n c => n * base + digit c) n

theorem le_readOn {base : ℕ} (hbase : 0 < base) (digit : UInt8 → ℕ) (n : ℕ) (s : Bytes) :
    n ≤ readOn base digit n s := by
  induction s generalizing n with
  | nil => exact le_rfl
  | cons c s ih =>
      exact ((Nat.le_mul_of_pos_right n hbase).trans (Nat.le_add_right _ _)).trans (ih (n * base + digit c))

theorem readOn_zero (base : ℕ) (digit : UInt8 → ℕ) (s : Bytes) :
    readOn base digit 0 s = value base (s.map digit) := by
  rw [readOn, value, List.foldl_map]

/-- **A digit loop** reads exactly the numerals up to the limit, and no step of it wraps. -/
theorem digitLoop_spec {isDigit : UInt8 → Bool} {digit : UInt8 → ℕ}
    {round : BitVec w → BitVec w → Except Wrapped (Option (BitVec w))} (hround : Exact base limit round)
    (hdigit : ∀ c, isDigit c = true → digit c < base.toNat) (hv : v.toNat ≤ limit.toNat) (s : Bytes) :
    ∃ r, digitLoop isDigit digit round v s = .ok r ∧ ∀ x, r = .ok x ↔
      (∀ c ∈ s, isDigit c = true) ∧ x.toNat = readOn base.toNat digit v.toNat s ∧ x.toNat ≤ limit.toNat :=
        by
  induction s generalizing v with
  | nil =>
      refine ⟨.ok v, rfl, fun x => ?_⟩
      rw [Scan.ok.injEq, ← BitVec.toNat_inj]
      constructor
      · intro heq
        exact ⟨by simp, heq.symm, heq ▸ hv⟩
      · rintro ⟨-, heq, -⟩
        exact heq.symm
  | cons c s ih =>
      rw [digitLoop]
      by_cases hc : isDigit c = true
      · have hlt := hdigit c hc
        have hd : (BitVec.ofNat w (digit c)).toNat = digit c := by
          rw [BitVec.toNat_ofNat, Nat.mod_eq_of_lt (hlt.trans base.isLt)]
        have hstep := hround v (BitVec.ofNat w (digit c)) (hd.symm ▸ hlt)
        rw [hd] at hstep
        rw [if_pos hc, hstep]
        by_cases hfits : v.toNat * base.toNat + digit c ≤ limit.toNat
        · have hv' : (BitVec.ofNat w (v.toNat * base.toNat + digit c)).toNat = v.toNat * base.toNat +
            digit c := by
            rw [BitVec.toNat_ofNat, Nat.mod_eq_of_lt (hfits.trans_lt limit.isLt)]
          obtain ⟨r, hr, hiff⟩ := ih (hv'.symm ▸ hfits)
          rw [hv'] at hiff
          rw [if_pos hfits]
          refine ⟨r, hr, fun x => (hiff x).trans ?_⟩
          rw [List.forall_mem_cons, and_iff_right hc]
          rfl
        · rw [if_neg hfits]
          refine ⟨.tooLarge, rfl, fun x => ⟨nofun, ?_⟩⟩
          rintro ⟨-, hx, hle⟩
          have hmore := le_readOn (Nat.zero_lt_of_lt hlt) digit (v.toNat * base.toNat + digit c) s
          exact absurd ((hx ▸ hmore : _ ≤ x.toNat).trans hle) hfits
      · rw [if_neg hc]
        refine ⟨.invalid, rfl, fun x => ⟨nofun, fun h => ?_⟩⟩
        exact absurd (h.1 c List.mem_cons_self) hc

end CheckedWord
