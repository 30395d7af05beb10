import LibCore.CInt
import LibCore.RawMemory

/-!
# String: Reversing

`impl_reverse` of `string_obj.c` copies the string block by block from its start to the end of a new buffer of
`length + 1` bytes. How long a block is, is taken from its first byte. The length of an object is an `int`, and
so is the size of the new buffer, which a string of `INT_MAX` bytes takes out of its range. Other allocations
succeed.

## Main results

* `reverse_utf8`: a text in UTF-8 is reversed code point by code point.
* `reverse_inBounds_iff`: the copies stay inside the buffers exactly if no block is cut off by the end.
-/

open CString RawMemory

/-- `String`. -/
structure StringObj where
  value : Bytes
  length : ℤ
  zero_notMem : 0 ∉ value
  length_eq : length = intOfSize value.length

namespace StringObj

/-! ### The functions -/

/-- `new_String`, on the bytes of a C string. -/
def newString (initStr : Bytes) : Option StringObj :=
  if h : 0 ∉ initStr then some ⟨initStr, intOfSize initStr.length, h, rfl⟩ else none

/-- `get_utf8_char_len`. -/
def utf8CharLen (c : UInt8) : ℕ :=
  if c &&& 0x80 = 0 then 1
  else if c &&& 0xE0 = 0xC0 then 2
  else if c &&& 0xF0 = 0xE0 then 3
  else if c &&& 0xF8 = 0xF0 then 4
  else 1

/-- A call of `memcpy`: to `dest` in the new buffer, from `src` in the string. -/
structure Copy where
  dest : ℤ
  src : ℕ
  n : ℕ
deriving DecidableEq

/-- The calls of the loop of `impl_reverse`. -/
def copies (value : Bytes) (len : ℤ) : ℕ → ℕ → ℤ → List Copy
  | 0, _, _ => []
  | fuel + 1, srcIdx, destIdx =>
      if (srcIdx : ℤ) < len then
        let charLen := utf8CharLen (value.getD srcIdx 0)
        let destIdx := destIdx - charLen
        ⟨destIdx, srcIdx, charLen⟩ :: copies value len fuel (srcIdx + charLen) destIdx
      else []

/-- The calls of `impl_reverse`; every round moves on by a byte at least. -/
def calls (self : StringObj) : List Copy := copies self.value self.length self.length.toNat 0 self.length

/-- `memcpy`; `none` where it leaves one of the buffers. -/
def memcpy (value : Bytes) (dest : Block) (c : Copy) : Option Block :=
  if c.src + c.n ≤ (value ++ [0]).length then store dest c.dest
    (((value ++ [0]).drop c.src).take c.n) else none

/-- `impl_reverse`; `none` where `len + 1` leaves `int` or is negative, a size that `malloc` refuses, and where
it reads or writes outside its buffers, or a byte that it has not written. -/
def reverse (self : StringObj) : Option StringObj := do
  guard (FitsInt (self.length + 1) ∧ 0 ≤ self.length + 1)
  let destRaw ← store (malloc (self.length + 1).toNat) self.length [0]
  let destRaw ← self.calls.foldlM (memcpy self.value) destRaw
  let str ← cstring destRaw
  newString str

/-- The bytes make the object. -/
theorem eq_of_value {self other : StringObj} (h : self.value = other.value) : self = other := by
  obtain ⟨value, length, hzero, hlength⟩ := self
  obtain ⟨value', length', hzero', hlength'⟩ := other
  simp only at h
  subst h
  rw [← hlength'] at hlength
  subst hlength
  rfl

/-- The length of a string that an `int` can count. -/
theorem length_of_lt {self : StringObj} (h : self.value.length < 2147483647) :
    self.length = self.value.length := by
  rw [self.length_eq]
  refine intOfSize_of_le ?_
  rw [intMax]
  omega

/-! ### Blocks -/

/-- The bytes are as many as the first one says. -/
def IsBlock : Bytes → Prop
  | [] => False
  | c :: rest => (c :: rest).length = utf8CharLen c

/-- The string is a sequence of blocks. -/
def Tiled (s : Bytes) : Prop := ∃ blocks : List Bytes, (∀ b ∈ blocks, IsBlock b) ∧ s = blocks.flatten

theorem utf8CharLen_pos (c : UInt8) : 0 < utf8CharLen c := by
  rw [utf8CharLen]
  split_ifs <;> decide

theorem IsBlock.length_pos {b : Bytes} (h : IsBlock b) : 0 < b.length := by
  cases b with
  | nil => exact h.elim
  | cons c rest => exact Nat.succ_pos _

theorem tiled_nil : Tiled [] := ⟨[], by simp, rfl⟩

theorem Tiled.append {b s : Bytes} (hb : IsBlock b) (hs : Tiled s) : Tiled (b ++ s) := by
  obtain ⟨blocks, hblocks, rfl⟩ := hs
  exact ⟨b :: blocks, List.forall_mem_cons.mpr ⟨hb, hblocks⟩, rfl⟩

/-- A round of the loop at a block. -/
theorem copies_block {value pre b post : Bytes} (hvalue : value = pre ++ (b ++ post)) (hb : IsBlock b)
    (fuel : ℕ)
    (dest : ℤ) : copies value value.length (fuel + 1) pre.length dest =
      ⟨dest - b.length, pre.length, b.length⟩ ::
        copies value value.length fuel (pre ++ b).length (dest - b.length) := by
  cases b with
  | nil => exact hb.elim
  | cons c rest =>
      have hlt : (pre.length : ℤ) < value.length := by
        rw [hvalue, List.length_append, List.cons_append, List.length_cons]
        omega
      have hhead : value.getD pre.length 0 = c := by
        rw [hvalue, List.getD_eq_getElem?_getD, List.getElem?_append_right le_rfl, Nat.sub_self]
        rfl
      have hlen : utf8CharLen c = (c :: rest).length := hb.symm
      rw [copies, if_pos hlt, hhead, hlen, List.length_append]

theorem length_le_flatten {blocks : List Bytes} (h : ∀ b ∈ blocks, IsBlock b) :
    blocks.length ≤ blocks.flatten.length := by
  induction blocks with
  | nil => exact le_rfl
  | cons b blocks ih =>
      obtain ⟨hb, hblocks⟩ := List.forall_mem_cons.mp h
      have hpos := hb.length_pos
      have hrest := ih hblocks
      rw [List.flatten_cons, List.length_append, List.length_cons]
      omega

/-- The blocks from a place on go to the front of the buffer, in reverse order. -/
theorem foldlM_copies {value pre : Bytes} {blocks : List Bytes} (hblocks : ∀ b ∈ blocks, IsBlock b)
    (hvalue : value = pre ++ blocks.flatten) {fuel : ℕ} (hfuel : blocks.length ≤ fuel) (back : Block) :
    (copies value value.length fuel pre.length blocks.flatten.length).foldlM (memcpy value)
      (malloc blocks.flatten.length ++ back) = some (blocks.reverse.flatten.map some ++ back) := by
  induction blocks generalizing pre fuel back with
  | nil =>
      have hend : ¬(pre.length : ℤ) < value.length := by
        rw [hvalue, List.flatten_nil, List.append_nil]
        exact lt_irrefl _
      cases fuel with
      | zero => rfl
      | succ fuel =>
          rw [copies, if_neg hend]
          rfl
  | cons b blocks ih =>
      obtain ⟨hb, hrest⟩ := List.forall_mem_cons.mp hblocks
      rw [List.flatten_cons] at hvalue ⊢
      obtain ⟨fuel, rfl⟩ : ∃ k, fuel = k + 1 := ⟨fuel - 1, by rw [List.length_cons] at hfuel; omega⟩
      have hdest : ((b ++ blocks.flatten).length : ℤ) - b.length = blocks.flatten.length := by
        rw [List.length_append]
        omega
      have hcells : malloc (b ++ blocks.flatten).length ++ back =
          malloc blocks.flatten.length ++ (malloc b.length ++ back) := by
        rw [malloc, malloc, malloc, List.length_append, Nat.add_comm, List.replicate_add, List.append_assoc]
      have hsource : (((value ++ [0]).drop pre.length).take b.length) = b := by
        rw [hvalue, List.append_assoc, List.drop_left, List.append_assoc, List.take_left]
      have hread : pre.length + b.length ≤ (value ++ [0]).length := by
        rw [hvalue]
        simp only [List.length_append]
        omega
      have hcopy : memcpy value (malloc (b ++ blocks.flatten).length ++ back)
          ⟨blocks.flatten.length, pre.length, b.length⟩ =
            some (malloc blocks.flatten.length ++ (b.map some ++ back)) := by
        have hstore := store_append (malloc blocks.flatten.length) (malloc b.length) back
          (length_malloc b.length)
        rw [length_malloc] at hstore
        rw [memcpy, if_pos hread, hsource, hcells, hstore]
      rw [copies_block hvalue hb, hdest, List.foldlM_cons, hcopy]
      have hnext := ih hrest (show value = (pre ++ b) ++ blocks.flatten by rw [List.append_assoc, hvalue])
        (Nat.le_of_succ_le_succ hfuel) (b.map some ++ back)
      refine hnext.trans ?_
      rw [List.reverse_cons, List.flatten_append, List.map_append, List.append_assoc]
      simp

/-- A sequence of blocks is reversed block by block. -/
theorem reverse_of_blocks {self : StringObj} (hlt : self.value.length < 2147483647) {blocks : List Bytes}
    (hblocks : ∀ b ∈ blocks, IsBlock b) (hvalue : self.value = blocks.flatten) :
    ∃ r, self.reverse = some r ∧ r.value = blocks.reverse.flatten := by
  have hlength : self.length = blocks.flatten.length := by rw [length_of_lt hlt, hvalue]
  rw [hvalue] at hlt
  have hreversed : blocks.reverse.flatten.length = blocks.flatten.length := by
    rw [List.length_flatten, List.length_flatten, List.map_reverse, List.sum_reverse]
  have hzero : 0 ∉ blocks.reverse.flatten := by
    have hself := self.zero_notMem
    rw [hvalue] at hself
    simpa using hself
  have hroom : FitsInt (self.length + 1) ∧ 0 ≤ self.length + 1 := by
    rw [hlength, FitsInt]
    omega
  have hterminate : store (malloc (self.length + 1).toNat) self.length [0] =
      some (malloc blocks.flatten.length ++ [some 0]) := by
    have hstore := @store_append (malloc blocks.flatten.length) (malloc 1) [] [0] rfl
    rw [length_malloc, List.append_nil] at hstore
    rw [hlength, show ((blocks.flatten.length : ℤ) + 1).toNat = blocks.flatten.length + 1 by omega, malloc,
      List.replicate_add]
    exact hstore
  have hcopied : self.calls.foldlM (memcpy self.value) (malloc blocks.flatten.length ++ [some 0]) =
      some (blocks.reverse.flatten.map some ++ [some 0]) := by
    have hrun := @foldlM_copies self.value [] blocks hblocks hvalue _ (length_le_flatten hblocks) [some 0]
    rw [calls, hlength, Int.toNat_natCast]
    rw [hvalue] at hrun ⊢
    exact hrun
  refine ⟨⟨blocks.reverse.flatten, _, hzero, rfl⟩, ?_, rfl⟩
  simp only [reverse, guard, if_pos hroom, hterminate, hcopied, cstring_append_zero hzero, pure_bind,
    Option.bind_eq_bind, Option.bind_some]
  rw [newString, dif_pos hzero]

/-! ### UTF-8 -/

theorem utf8CharLen_ascii : ∀ b : UInt8, b < 0x80 → utf8CharLen b = 1 := by decide +kernel

theorem utf8CharLen_lead : ∀ b : UInt8, utf8CharLen (b &&& 0x1F ||| 0xC0) = 2 ∧
    utf8CharLen (b &&& 0x0F ||| 0xE0) = 3 ∧ utf8CharLen (b &&& 0x07 ||| 0xF0) = 4 := by
  decide +kernel

/-- The first byte of a code point says how many bytes it takes. -/
theorem isBlock_utf8EncodeChar (c : Char) : IsBlock (String.utf8EncodeChar c) := by
  rcases c.utf8Size_eq with h | h | h | h
  · have hle : c.val.toNat ≤ 127 := UInt32.le_iff_toNat_le.mp (Char.utf8Size_eq_one_iff.mp h)
    have hlt : c.val.toUInt8 < 0x80 := by
      rw [UInt8.lt_iff_toNat_lt, UInt32.toNat_toUInt8]
      exact (Nat.mod_le _ _).trans_lt (Nat.lt_succ_of_le hle)
    rw [String.utf8EncodeChar_eq_singleton h]
    exact (utf8CharLen_ascii _ hlt).symm
  · rw [String.utf8EncodeChar_eq_cons_cons h]
    exact (utf8CharLen_lead _).1.symm
  · rw [String.utf8EncodeChar_eq_cons_cons_cons h]
    exact (utf8CharLen_lead _).2.1.symm
  · rw [String.utf8EncodeChar_eq_cons_cons_cons_cons h]
    exact (utf8CharLen_lead _).2.2.symm

/-- **A text is reversed** code point by code point, and twice reversed it is as before. -/
theorem reverse_utf8 {self : StringObj} (hlt : self.value.length < 2147483647) {cs : List Char}
    (hvalue : self.value = cs.flatMap String.utf8EncodeChar) :
    ∃ r, self.reverse = some r ∧ r.value = cs.reverse.flatMap String.utf8EncodeChar ∧ r.reverse =
      some self := by
  have hblocks : ∀ cs : List Char, ∀ b ∈ cs.map String.utf8EncodeChar, IsBlock b := by
    intro cs b hb
    obtain ⟨c, -, rfl⟩ := List.mem_map.mp hb
    exact isBlock_utf8EncodeChar c
  obtain ⟨r, hr, hrvalue⟩ := reverse_of_blocks hlt (hblocks cs) (hvalue.trans (List.flatMap_def ..))
  rw [← List.map_reverse, ← List.flatMap_def] at hrvalue
  have hrlt : r.value.length < 2147483647 := by
    rw [hvalue] at hlt
    rwa [hrvalue, List.length_flatMap, List.map_reverse, List.sum_reverse, ← List.length_flatMap]
  obtain ⟨s, hs, hsvalue⟩ := reverse_of_blocks hrlt (hblocks cs.reverse)
    (hrvalue.trans (List.flatMap_def ..))
  rw [← List.map_reverse, List.reverse_reverse, ← List.flatMap_def, ← hvalue] at hsvalue
  refine ⟨r, hr, hrvalue, ?_⟩
  rw [hs]
  exact congrArg some (eq_of_value hsvalue)

theorem reverse_utf8_sample :
    ∃ self, newString [0x61, 0xC3, 0xA9] = some self ∧
      ∃ r, self.reverse = some r ∧ r.value = [0xC3, 0xA9, 0x61] ∧ r.reverse = some self :=
  ⟨_, rfl, reverse_utf8 (by decide) (show _ = ['a', 'é'].flatMap String.utf8EncodeChar by decide)⟩

/-! ### Bounds -/

/-- The call reads the byte at the index. -/
def Copy.Reads (c : Copy) (i : ℤ) : Prop := c.src ≤ i ∧ i < c.src + c.n

/-- The call writes the byte at the index. -/
def Copy.Writes (c : Copy) (i : ℤ) : Prop := c.dest ≤ i ∧ i < c.dest + c.n

/-- The byte at the index is written: the NUL, or by a call. -/
def Written (self : StringObj) (i : ℤ) : Prop := i = self.length ∨ ∃ c ∈ self.calls, c.Writes i

/-- `impl_reverse` stays inside its two buffers of `length + 1` bytes, and fills the new one. The first byte of
a block is read by the loop and again by the call. -/
structure ReverseInBounds (str : StringObj) : Prop where
  reads : ∀ c ∈ str.calls, ∀ i : ℤ, c.Reads i → 0 ≤ i ∧ i ≤ str.length
  writes : ∀ i : ℤ, str.Written i → 0 ≤ i ∧ i ≤ str.length
  all_written : ∀ i : ℤ, 0 ≤ i → i ≤ str.length → str.Written i

/-- The calls from a place on read the blocks from there and fill the front of the buffer. -/
theorem copies_of_blocks {value pre : Bytes} {blocks : List Bytes} (hblocks : ∀ b ∈ blocks, IsBlock b)
    (hvalue : value = pre ++ blocks.flatten) {fuel : ℕ} (hfuel : blocks.length ≤ fuel) :
    (∀ c ∈ copies value value.length fuel pre.length blocks.flatten.length,
      c.src + c.n ≤ value.length ∧ 0 ≤ c.dest ∧ c.dest + c.n ≤ blocks.flatten.length) ∧
      ∀ i : ℤ, 0 ≤ i → i < blocks.flatten.length →
        ∃ c ∈ copies value value.length fuel pre.length blocks.flatten.length, c.Writes i := by
  induction blocks generalizing pre fuel with
  | nil =>
      have hend : ¬(pre.length : ℤ) < value.length := by
        rw [hvalue, List.flatten_nil, List.append_nil]
        exact lt_irrefl _
      have hnil : copies value value.length fuel pre.length ([] : List Bytes).flatten.length = [] := by
        cases fuel with
        | zero => rfl
        | succ fuel => rw [copies, if_neg hend]
      rw [hnil]
      refine ⟨by simp, fun i hnonneg hlt => ?_⟩
      rw [List.flatten_nil, List.length_nil] at hlt
      omega
  | cons b blocks ih =>
      obtain ⟨hb, hrest⟩ := List.forall_mem_cons.mp hblocks
      rw [List.flatten_cons] at hvalue ⊢
      obtain ⟨fuel, rfl⟩ : ∃ k, fuel = k + 1 := ⟨fuel - 1, by rw [List.length_cons] at hfuel; omega⟩
      have hlength : value.length = pre.length + (b.length + blocks.flatten.length) := by
        rw [hvalue, List.length_append, List.length_append]
      have hdest : ((b ++ blocks.flatten).length : ℤ) - b.length = blocks.flatten.length := by
        rw [List.length_append]
        omega
      obtain ⟨hbounds, hfilled⟩ := ih hrest (show value = (pre ++ b) ++ blocks.flatten by
        rw [List.append_assoc, hvalue]) (Nat.le_of_succ_le_succ hfuel)
      rw [copies_block hvalue hb, hdest, @List.length_append _ b]
      refine ⟨List.forall_mem_cons.mpr ⟨?_, fun c hc => ?_⟩, fun i hnonneg hlt => ?_⟩
      · refine ⟨?_, ?_, ?_⟩ <;> dsimp only <;> omega
      · obtain ⟨hread, hlow, hhigh⟩ := hbounds c hc
        exact ⟨hread, hlow, by omega⟩
      · by_cases hfront : i < blocks.flatten.length
        · obtain ⟨c, hc, hwrites⟩ := hfilled i hnonneg hfront
          exact ⟨c, List.mem_cons_of_mem _ hc, hwrites⟩
        · refine ⟨_, List.mem_cons_self, ?_⟩
          rw [Copy.Writes]
          dsimp only
          omega

/-- A block that is cut off is copied to a place before the buffer. -/
theorem exists_copy_neg {value pre suffix : Bytes} (hvalue : value = pre ++ suffix) {fuel : ℕ}
    (hfuel : suffix.length ≤ fuel) (htiled : ¬Tiled suffix) :
    ∃ c ∈ copies value value.length fuel pre.length suffix.length, c.dest < 0 ∧ 0 < c.n := by
  induction fuel generalizing pre suffix with
  | zero =>
      obtain rfl := List.eq_nil_of_length_eq_zero (Nat.le_zero.mp hfuel)
      exact absurd tiled_nil htiled
  | succ fuel ih =>
      cases suffix with
      | nil => exact absurd tiled_nil htiled
      | cons c rest =>
          have hpos := utf8CharLen_pos c
          by_cases hcut : utf8CharLen c ≤ (c :: rest).length
          · -- the block is there, so it is one that comes later
            obtain ⟨b, post, hsuffix, hlen⟩ : ∃ b post, c :: rest = b ++ post ∧ b.length = utf8CharLen c :=
              ⟨(c :: rest).take (utf8CharLen c), _, (List.take_append_drop _ _).symm,
                List.length_take_of_le hcut⟩
            have hb : IsBlock b := by
              cases b with
              | nil => exact absurd hlen hpos.ne
              | cons d b =>
                  obtain ⟨rfl, -⟩ := List.cons.inj hsuffix
                  exact hlen
            rw [hsuffix] at hvalue hfuel htiled ⊢
            have hpost : ¬Tiled post := fun h => htiled (h.append hb)
            have hdest : ((b ++ post).length : ℤ) - b.length = post.length := by
              rw [List.length_append]
              omega
            rw [List.length_append] at hfuel
            obtain ⟨d, hd, hneg⟩ := ih (show value = (pre ++ b) ++ post by rw [List.append_assoc, hvalue])
              (by omega) hpost
            rw [copies_block hvalue hb, hdest]
            exact ⟨d, List.mem_cons_of_mem _ hd, hneg⟩
          · have hlt : (pre.length : ℤ) < value.length := by
              rw [hvalue, List.length_append, List.length_cons]
              omega
            have hhead : value.getD pre.length 0 = c := by
              rw [hvalue, List.getD_eq_getElem?_getD, List.getElem?_append_right le_rfl, Nat.sub_self]
              rfl
            rw [copies, if_pos hlt, hhead]
            refine ⟨_, List.mem_cons_self, ?_, hpos⟩
            dsimp only
            omega

/-- **The copies stay inside the buffers** exactly if the string is a sequence of whole blocks. -/
theorem reverse_inBounds_iff (self : StringObj) (hlt : self.value.length < 2147483647) :
    self.ReverseInBounds ↔ Tiled self.value := by
  have hlength := length_of_lt hlt
  have hcalls : self.calls = copies self.value self.value.length self.value.length 0 self.value.length := by
    rw [calls, hlength, Int.toNat_natCast]
  constructor
  · intro h
    by_contra htiled
    obtain ⟨c, hc, hneg, hpos⟩ := exists_copy_neg (List.nil_append self.value).symm le_rfl htiled
    have hmem : c ∈ self.calls := by
      rw [hcalls]
      exact hc
    have hwrites : c.Writes c.dest := ⟨le_rfl, by omega⟩
    exact absurd (h.writes c.dest (.inr ⟨c, hmem, hwrites⟩)).1 (not_le.mpr hneg)
  · rintro ⟨blocks, hblocks, hvalue⟩
    obtain ⟨hbounds, hfilled⟩ := @copies_of_blocks self.value [] blocks hblocks hvalue _
      (length_le_flatten hblocks)
    rw [← hvalue, List.length_nil, ← hcalls] at hbounds hfilled
    refine ⟨fun c hc i hi => ?_, fun i hi => ?_, fun i hnonneg hle => ?_⟩
    · obtain ⟨hread, -⟩ := hbounds c hc
      obtain ⟨hlow, hhigh⟩ := hi
      omega
    · rcases hi with rfl | ⟨c, hc, hlow, hhigh⟩
      · exact ⟨by omega, le_rfl⟩
      · obtain ⟨-, hdest, hend⟩ := hbounds c hc
        omega
    · by_cases hend : i = self.length
      · exact .inl hend
      · exact .inr (hfilled i hnonneg (by omega))

/-- A text of two code points. -/
theorem reverse_inBounds_sample : ∃ self, newString [0x61, 0xC3, 0xA9] = some self ∧ self.ReverseInBounds :=
  ⟨_, rfl, (reverse_inBounds_iff _ (by decide)).mpr
    ⟨[[0x61], [0xC3, 0xA9]], List.forall_mem_cons.mpr ⟨rfl, List.forall_mem_singleton.mpr rfl⟩, rfl⟩⟩

/-- A lead byte at the end of a string is copied, with the NUL behind it, to the byte before the buffer. -/
theorem reverse_lead_byte :
    ∃ self, newString [0xC3] = some self ∧ self.calls = [⟨-1, 0, 2⟩] ∧ ¬self.ReverseInBounds := by
  refine ⟨_, rfl, by decide, fun h => ?_⟩
  have hwritten : Written ⟨[0xC3], _, by decide, rfl⟩ (-1) :=
    .inr ⟨⟨-1, 0, 2⟩, by decide, by decide, by decide⟩
  exact absurd (h.writes _ hwritten).1 (by decide)

end StringObj
