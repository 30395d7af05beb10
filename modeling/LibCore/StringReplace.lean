import LibCore.Occurrences
import LibCore.RawMemory

/-!
# String: Replacing

`str_replace_all` of `string_obj.c` counts the occurrences with one scan, allocates, and writes with another
scan that asks at every place whether the target occurs there. Sizes are `size_t`; memory does not run out.

## Main results

* `newLen_eq`: the size that is allocated is the length of the result and one.
* `strReplaceAll_spec`: nothing is written outside the block, and the block holds the result.
-/

open CString RawMemory Occurrences

namespace StringReplace

/-! ### The function -/

/-- `strlen`. -/
def strlen (s : Bytes) : UInt64 := UInt64.ofNat s.length

/-- The loop that counts. -/
def countLoop (target : Bytes) : ℕ → Bytes → UInt64 → UInt64
  | 0, _, cnt => cnt
  | fuel + 1, tmp, cnt =>
      match strstr target tmp with
      | none => cnt
      | some i => countLoop target fuel (tmp.drop (i + target.length)) (cnt + 1)

/-- The size of the result with its NUL; `none` where it is no `size_t`. -/
def newLen (source target replacement : Bytes) : Option UInt64 :=
  let targetLen := strlen target
  let replacementLen := strlen replacement
  let cnt := countLoop target (source.length + 1) source 0
  let srcLen := strlen source
  if replacementLen ≥ targetLen then
    let diff := replacementLen - targetLen
    if cnt > 0 ∧ diff > (0xFFFFFFFFFFFFFFFF - srcLen - 1) / cnt then none
    else some (srcLen + cnt * diff + 1)
  else some (srcLen - cnt * (targetLen - replacementLen) + 1)

/-- The loop that writes; `strcpy` writes a NUL too, which the next store replaces. -/
def writeLoop (target replacement : Bytes) : ℕ → Bytes → ℕ → Block → Option Block
  | 0, _, _, _ => none
  | _ + 1, [], i, result => store result i [0]
  | fuel + 1, c :: source, i, result =>
      if strstr target (c :: source) = some 0 then do
        let result ← store result i (replacement ++ [0])
        writeLoop target replacement fuel ((c :: source).drop target.length) (i + replacement.length) result
      else do
        let result ← store result i [c]
        writeLoop target replacement fuel source (i + 1) result

/-- `str_replace_all`, on strings that are there: `some none` for `NULL`, and `none` where it writes outside the
block. -/
def strReplaceAll (source target replacement : Bytes) : Option (Option Block) :=
  if target = [] then some (some (source.map some ++ [some 0]))
  else
    match newLen source target replacement with
    | none => some none
    | some n => (writeLoop target replacement (source.length + 1) source 0 (malloc n.toNat)).map some

/-! ### The scans -/

variable {source target replacement : Bytes} {parts : List Bytes}

theorem strstr_eq_some_iff_firstAt (hne : target ≠ []) {s : Bytes} (hs : 0 ∉ s) {i : ℕ} :
    strstr target s = some i ↔ FirstAt target s i := by
  rw [strstr_eq_some_iff hne, FirstAt, ← and_assoc, and_iff_left_iff_imp]
  rintro - c hc rfl
  exact hs (List.mem_of_mem_take hc)

theorem strstr_eq_none_iff (hne : target ≠ []) {s : Bytes} (hs : 0 ∉ s) :
    strstr target s = none ↔ ¬target <:+: s := by
  rw [Option.eq_none_iff_forall_ne_some]
  constructor
  · intro h hinfix
    obtain ⟨i, hi⟩ := exists_firstAt hinfix
    exact h i ((strstr_eq_some_iff_firstAt hne hs).mpr hi)
  · intro h i hi
    exact h ((strstr_eq_some_iff_firstAt hne hs).mp hi).isInfix

theorem strstr_eq_zero_iff (hne : target ≠ []) {s : Bytes} (hs : 0 ∉ s) :
    strstr target s = some 0 ↔ target <+: s := by
  rw [strstr_eq_some_iff_firstAt hne hs, FirstAt, List.drop_zero, and_iff_left_iff_imp]
  exact fun _ j hj => absurd hj (Nat.not_lt_zero j)

/-- The first scan counts the places between the pieces. -/
theorem countLoop_eq (hne : target ≠ []) {s : Bytes} (hs : 0 ∉ s) (hcut : Cut target s parts) {fuel : ℕ}
    (hfuel : s.length < fuel) (cnt : UInt64) :
    countLoop target fuel s cnt = cnt + UInt64.ofNat (parts.length - 1) := by
  induction hcut generalizing fuel cnt with
  | last h =>
      obtain ⟨fuel, rfl⟩ := Nat.exists_eq_succ_of_ne_zero (Nat.ne_of_gt (Nat.zero_lt_of_lt hfuel))
      rw [countLoop, (strstr_eq_none_iff hne hs).mpr h]
      exact (UInt64.add_zero cnt).symm
  | @next s i parts h hcut ih =>
      obtain ⟨fuel, rfl⟩ := Nat.exists_eq_succ_of_ne_zero (Nat.ne_of_gt (Nat.zero_lt_of_lt hfuel))
      have hpos := List.length_pos_iff.mpr hne
      have hle := h.1.length_le
      have hparts := List.length_pos_iff.mpr hcut.ne_nil
      rw [List.length_drop] at hle
      have hrest := ih (fun hmem => hs (List.mem_of_mem_drop hmem))
        (show (s.drop (i + target.length)).length < fuel by rw [List.length_drop]; omega) (cnt + 1)
      have hcount : parts.length = 1 + (parts.length - 1) := by omega
      rw [countLoop, (strstr_eq_some_iff_firstAt hne hs).mpr h]
      dsimp only
      rw [hrest, List.length_cons, Nat.add_sub_cancel]
      conv_rhs => rw [hcount, UInt64.ofNat_add]
      exact UInt64.add_assoc cnt 1 _

/-- The lengths of the source and of the result. -/
theorem lengths_of_cut (hcut : Cut target source parts) :
    source.length + (parts.length - 1) * replacement.length =
      (replacement.intercalate parts).length + (parts.length - 1) * target.length := by
  have hsource := length_intercalate target hcut.ne_nil
  have hresult := length_intercalate replacement hcut.ne_nil
  rw [hcut.intercalate_eq] at hsource
  omega

theorem toNat_ofNat {n : ℕ} (h : n < 2 ^ 64) : (UInt64.ofNat n).toNat = n := UInt64.toNat_ofNat_of_lt' h

theorem toNat_strlen {s : Bytes} (h : s.length + 1 < 2 ^ 64) : (strlen s).toNat = s.length :=
  toNat_ofNat (by omega)

/-- The test for an overflow. -/
theorem overflow_iff {n k d : UInt64} (hn : n.toNat + 1 < 2 ^ 64) :
    (k > 0 ∧ d > (0xFFFFFFFFFFFFFFFF - n - 1) / k) ↔ 2 ^ 64 ≤ n.toNat + k.toNat * d.toNat + 1 := by
  have hmax : (0xFFFFFFFFFFFFFFFF : UInt64).toNat = 2 ^ 64 - 1 := rfl
  have hone : (1 : UInt64).toNat = 1 := rfl
  have hle : n ≤ 0xFFFFFFFFFFFFFFFF := UInt64.le_iff_toNat_le.mpr (by omega)
  have hsub : (0xFFFFFFFFFFFFFFFF - n).toNat = 2 ^ 64 - 1 - n.toNat := by
    rw [UInt64.toNat_sub_of_le _ _ hle, hmax]
  have hle' : 1 ≤ 0xFFFFFFFFFFFFFFFF - n := UInt64.le_iff_toNat_le.mpr (by omega)
  have hroom : (0xFFFFFFFFFFFFFFFF - n - 1).toNat = 2 ^ 64 - 2 - n.toNat := by
    rw [UInt64.toNat_sub_of_le _ _ hle', hsub, hone]
    omega
  have hzero : (0 : UInt64).toNat = 0 := rfl
  rw [gt_iff_lt, gt_iff_lt, UInt64.lt_iff_toNat_lt, UInt64.lt_iff_toNat_lt, UInt64.toNat_div, hroom, hzero]
  constructor
  · rintro ⟨hk, hd⟩
    rw [Nat.div_lt_iff_lt_mul hk, Nat.mul_comm] at hd
    omega
  · intro h
    have hk : 0 < k.toNat := by
      by_contra hk
      rw [Nat.eq_zero_of_not_pos hk] at h
      omega
    refine ⟨hk, ?_⟩
    rw [Nat.div_lt_iff_lt_mul hk, Nat.mul_comm]
    omega

/-- **The size** that is allocated is the length of the result and one, or nothing is allocated. -/
theorem newLen_eq (hne : target ≠ []) (hzero : 0 ∉ source) (hcut : Cut target source parts)
    (hsource : source.length + 1 < 2 ^ 64) (htarget : target.length + 1 < 2 ^ 64)
    (hreplacement : replacement.length + 1 < 2 ^ 64) :
    newLen source target replacement =
      if (replacement.intercalate parts).length + 1 < 2 ^ 64 then
        some (UInt64.ofNat ((replacement.intercalate parts).length + 1))
      else none := by
  have hlengths := @lengths_of_cut source target replacement parts hcut
  have hpos := List.length_pos_iff.mpr hne
  have hcnt : countLoop target (source.length + 1) source 0 = UInt64.ofNat (parts.length - 1) := by
    rw [countLoop_eq hne hzero hcut (Nat.lt_succ_self _), UInt64.zero_add]
  -- there are no more occurrences than bytes
  have hfits : (parts.length - 1) * target.length ≤ source.length := by
    have hlen := length_intercalate target hcut.ne_nil
    rw [hcut.intercalate_eq] at hlen
    omega
  have hk : (UInt64.ofNat (parts.length - 1)).toNat = parts.length - 1 := by
    refine toNat_ofNat ?_
    exact (Nat.le_mul_of_pos_right _ hpos).trans_lt (by omega)
  have hn := toNat_strlen hsource
  have hm := toNat_strlen htarget
  have hr := toNat_strlen hreplacement
  have hone : (1 : UInt64).toNat = 1 := rfl
  rw [newLen, hcnt]
  dsimp only
  generalize UInt64.ofNat (parts.length - 1) = cnt at hk
  rw [← hk] at hlengths hfits
  by_cases hge : strlen replacement ≥ strlen target
  · have hdiff : (strlen replacement - strlen target).toNat = replacement.length - target.length := by
      rw [UInt64.toNat_sub_of_le _ _ hge, hm, hr]
    have hle := UInt64.le_iff_toNat_le.mp hge
    rw [hm, hr] at hle
    have hgrow : (replacement.intercalate parts).length =
        source.length + cnt.toNat * (replacement.length - target.length) := by
      rw [Nat.mul_sub]
      have hmul := Nat.mul_le_mul_left cnt.toNat hle
      omega
    rw [if_pos hge]
    by_cases hover : 2 ^ 64 ≤ source.length + cnt.toNat * (replacement.length - target.length) + 1
    · have htest := (@overflow_iff (strlen source) cnt (strlen replacement - strlen target)
        (by rw [hn]; exact hsource)).mpr
        (by rw [hn, hdiff]; exact hover)
      rw [if_pos htest, if_neg (by omega)]
    · have htest := mt (@overflow_iff (strlen source) cnt (strlen replacement - strlen target)
        (by rw [hn]; exact hsource)).mp (by rw [hn, hdiff]; exact hover)
      rw [if_neg htest, if_pos (by omega)]
      refine congrArg some (UInt64.toNat_inj.mp ?_)
      rw [toNat_ofNat (by omega), UInt64.toNat_add, UInt64.toNat_add, UInt64.toNat_mul, hn, hdiff, hone,
        hgrow]
      omega
  · have hlt : replacement.length < target.length := by
      have h := UInt64.lt_iff_toNat_lt.mp (UInt64.not_le.mp hge)
      rwa [hm, hr] at h
    have hdiff : (strlen target - strlen replacement).toNat = target.length - replacement.length := by
      rw [UInt64.toNat_sub_of_le _ _ (UInt64.le_of_lt (UInt64.not_le.mp hge)), hm, hr]
    have hmul := Nat.mul_le_mul_left cnt.toNat hlt.le
    have hshrink : cnt.toNat * (target.length - replacement.length) ≤ source.length ∧
        (replacement.intercalate parts).length =
          source.length - cnt.toNat * (target.length - replacement.length) := by
      rw [Nat.mul_sub]
      omega
    have hprod : (cnt * (strlen target - strlen replacement)).toNat =
        cnt.toNat * (target.length - replacement.length) := by
      rw [UInt64.toNat_mul, hdiff]
      exact Nat.mod_eq_of_lt (by omega)
    have hle : cnt * (strlen target - strlen replacement) ≤ strlen source := by
      rw [UInt64.le_iff_toNat_le, hprod, hn]
      exact hshrink.1
    rw [if_neg hge, if_pos (by omega)]
    refine congrArg some (UInt64.toNat_inj.mp ?_)
    rw [toNat_ofNat (by omega), UInt64.toNat_add, UInt64.toNat_sub_of_le _ _ hle, hprod, hn, hone,
      hshrink.2]
    omega

/-! ### Writing -/

/-- A store at the end of what is written. -/
theorem store_written (written : Bytes) (rest : Block) {bytes : Bytes} (hlen : bytes.length ≤ rest.length) :
    store (written.map some ++ rest) written.length bytes =
      some (written.map some ++ (bytes.map some ++ rest.drop bytes.length)) := by
  have hstore := store_append (written.map some) (rest.take bytes.length) (rest.drop bytes.length)
    (List.length_take_of_le hlen)
  rwa [List.take_append_drop, List.length_map] at hstore

/-- The second scan puts the pieces together, as long as there is room for the result and a NUL. -/
theorem writeLoop_eq (hne : target ≠ []) {s : Bytes} (hs : 0 ∉ s) (hcut : Cut target s parts) {fuel : ℕ}
    (hfuel : s.length < fuel) (written : Bytes) {rest : Block}
    (hrest : rest.length = (replacement.intercalate parts).length + 1) :
    writeLoop target replacement fuel s written.length (written.map some ++ rest) =
      some ((written ++ replacement.intercalate parts).map some ++ [some 0]) := by
  induction fuel generalizing s parts written rest with
  | zero => exact absurd hfuel (Nat.not_lt_zero _)
  | succ fuel ih =>
      cases s with
      | nil =>
          obtain rfl : parts = [[]] := by
            refine hcut.unique (.last fun h => hne (List.infix_nil.mp h))
          have hone : rest.length = [(0 : UInt8)].length := hrest
          rw [writeLoop, store_written written rest hone.ge, List.drop_eq_nil_of_le hone.le,
            List.intercalate_singleton, List.append_nil, List.append_nil]
          rfl
      | cons c s =>
          rw [writeLoop]
          simp only [strstr_eq_zero_iff hne hs]
          by_cases hprefix : target <+: c :: s
          · -- the replacement is written, and the NUL behind it where the next piece goes
            obtain ⟨ps, rfl, hcut'⟩ := hcut.of_prefix hprefix
            have hpos := List.length_pos_iff.mpr hne
            rw [List.intercalate_cons_of_ne_nil hcut'.ne_nil, List.nil_append] at hrest ⊢
            rw [List.length_append] at hrest
            have hroom : (replacement ++ [0]).length ≤ rest.length := by
              rw [List.length_append, List.length_singleton]
              omega
            have hnext := ih (fun hmem => hs (List.mem_of_mem_drop hmem)) hcut'
              (by rw [List.length_drop]; rw [List.length_cons] at hfuel ⊢; omega) (written ++ replacement)
              (show (some 0 :: rest.drop (replacement ++ [0]).length).length = _ by
                rw [List.length_cons, List.length_drop, List.length_append, List.length_singleton]
                omega)
            rw [if_pos hprefix, store_written written rest hroom, Option.bind_eq_bind, Option.bind_some]
            rw [List.length_append, List.append_assoc, List.map_append, List.append_assoc] at hnext
            rw [List.map_append, List.append_assoc]
            exact hnext
          · obtain ⟨piece, ps, rfl, hcut'⟩ := hcut.of_not_prefix hprefix
            have hcons : replacement.intercalate ((c :: piece) :: ps) =
              c :: replacement.intercalate (piece :: ps) := by
              cases ps with
              | nil => rw [List.intercalate_singleton, List.intercalate_singleton]
              | cons p ps => rw [List.intercalate_cons_cons, List.intercalate_cons_cons]; rfl
            rw [hcons] at hrest ⊢
            rw [List.length_cons] at hrest
            have hnext := ih (fun hmem => hs (List.mem_cons_of_mem c hmem)) hcut'
              (Nat.lt_of_succ_lt_succ hfuel)
              (written ++ [c]) (show (rest.drop [c].length).length = _ by
                rw [List.length_drop, List.length_singleton]
                omega)
            have hroom : [c].length ≤ rest.length := by
              rw [List.length_singleton]
              omega
            rw [if_neg hprefix, store_written written rest hroom, Option.bind_eq_bind, Option.bind_some]
            rw [List.length_append, List.append_assoc, List.map_append, List.append_assoc] at hnext
            exact hnext

theorem zero_notMem_intercalate {sep : Bytes} (hsep : 0 ∉ sep) (hparts : ∀ p ∈ parts, 0 ∉ p) :
    0 ∉ sep.intercalate parts := by
  induction parts with
  | nil => simp
  | cons p parts ih =>
      obtain ⟨hp, hrest⟩ := List.forall_mem_cons.mp hparts
      by_cases hnil : parts = []
      · rw [hnil, List.intercalate_singleton]
        exact hp
      · rw [List.intercalate_cons_of_ne_nil hnil, List.mem_append, List.mem_append]
        rintro ((h | h) | h)
        · exact hp h
        · exact hsep h
        · exact ih hrest h

/-- The pieces have no byte that the text does not have. -/
theorem mem_of_mem_cut (hcut : Cut target source parts) {p : Bytes} (hp : p ∈ parts) {c : UInt8}
    (hc : c ∈ p) :
    c ∈ source := by
  induction hcut with
  | last h =>
      obtain rfl := List.mem_singleton.mp hp
      exact hc
  | next h hcut ih =>
      rcases List.mem_cons.mp hp with rfl | hp
      · exact List.mem_of_mem_take hc
      · exact List.mem_of_mem_drop (ih hp)

/-- **The block fits the result**, which is the source with the leftmost occurrences replaced. -/
theorem strReplaceAll_spec (hne : target ≠ []) (hsource : 0 ∉ source) (hreplacement : 0 ∉ replacement)
    (hsourceLen : source.length + 1 < 2 ^ 64) (htargetLen : target.length + 1 < 2 ^ 64)
    (hreplacementLen : replacement.length + 1 < 2 ^ 64) :
    ∃ parts, Cut target source parts ∧
      if (replacement.intercalate parts).length + 1 < 2 ^ 64 then
        ∃ block, strReplaceAll source target replacement = some (some block) ∧
          block.length = (replacement.intercalate parts).length + 1 ∧
          cstring block = some (replacement.intercalate parts)
      else strReplaceAll source target replacement = some none := by
  obtain ⟨parts, hcut⟩ := exists_cut hne source
  refine ⟨parts, hcut, ?_⟩
  rw [strReplaceAll, if_neg hne, newLen_eq hne hsource hcut hsourceLen htargetLen hreplacementLen]
  split_ifs with hfits
  · have hzero : 0 ∉ replacement.intercalate parts :=
      zero_notMem_intercalate hreplacement fun p hp hmem => hsource (mem_of_mem_cut hcut hp hmem)
    have hwrite := writeLoop_eq hne hsource hcut (Nat.lt_succ_self _) []
      (length_malloc ((replacement.intercalate parts).length + 1))
    rw [List.map_nil, List.nil_append, List.nil_append, List.length_nil] at hwrite
    refine ⟨_, ?_, ?_, cstring_append_zero hzero []⟩
    · dsimp only
      rw [toNat_ofNat hfits, hwrite]
      rfl
    · rw [List.length_append, List.length_map, List.length_singleton]
  · rfl

theorem strReplaceAll_overlapping :
    ∃ block, strReplaceAll (ascii ['a', 'a', 'a', 'b']) (ascii ['a', 'a']) (ascii ['x']) =
      some (some block) ∧
      block.length = 4 ∧ cstring block = some (ascii ['x', 'a', 'b']) := by
  obtain ⟨parts, hcut, hspec⟩ := @strReplaceAll_spec (ascii ['a', 'a', 'a', 'b']) (ascii ['a', 'a'])
    (ascii ['x'])
    (by decide) (by decide) (by decide) (by decide) (by decide) (by decide)
  have hparts : Cut (ascii ['a', 'a']) (ascii ['a', 'a', 'a', 'b']) [[], ascii ['a', 'b']] :=
    @Cut.next _ _ _ 0 _ ⟨by decide, by simp⟩ (.last (by decide))
  obtain rfl := hcut.unique hparts
  exact hspec

end StringReplace
