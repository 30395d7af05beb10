import LibCore.Bytes

/-!
# WebSocket Frames

`ws_decode_frame3` of `ws_protocol.c`, the frame decoder of the server. It looks at the head
of the input buffer, asks for more bytes until the frame is there, unmasks the payload in the
buffer itself and reports how many bytes the frame takes. Fragmented messages, unmasked
frames, reserved bits and payloads above one MiB are errors.

A `Frame` is a legal client frame as such: an opcode, one of the three ways to write the
length, a masking key and the payload. `Frame.wire` is what the client sends.

## Main definitions

* `wsDecodeFrame3`: the decoder.
* `Frame`, `Frame.wire`: legal frames and their bytes.

## Main results

* `wsDecodeFrame3_wire`: the decoder gives a legal frame back, whatever stands behind it.
* `exists_frame_of_ok`: it accepts nothing else.
* `wsDecodeFrame3_error_append`: an error stays an error when more bytes arrive.
* `length_of_needMore`: the decoder never waits with a whole frame of the largest size.
-/

open CString

namespace Ws

/-- `MAX_WS_PAYLOAD_SIZE`. -/
def maxPayloadSize : ℕ := 1024 * 1024

/-- The opcodes `ws_decode_frame3` lets through. -/
inductive Opcode where
  | text | binary | close | ping | pong
deriving DecidableEq

/-- The opcodes of control frames. -/
def Opcode.isControl : Opcode → Bool
  | .text | .binary => false
  | .close | .ping | .pong => true

/-- The `WS_OPCODE_*` constants. -/
def Opcode.code : Opcode → UInt8
  | .text => 0x1
  | .binary => 0x2
  | .close => 0x8
  | .ping => 0x9
  | .pong => 0xA

/-- The opcode of a first byte; the continuation and the reserved opcodes have none. -/
def opcodeOf (b0 : UInt8) : Option Opcode :=
  if b0 &&& 0x0F = 0x1 then some .text
  else if b0 &&& 0x0F = 0x2 then some .binary
  else if b0 &&& 0x0F = 0x8 then some .close
  else if b0 &&& 0x0F = 0x9 then some .ping
  else if b0 &&& 0x0F = 0xA then some .pong
  else none

/-- A number in network byte order. -/
def beNat (bs : Bytes) : ℕ := bs.foldl (fun n b => n * 256 + b.toNat) 0

/-- The results of `ws_decode_frame3`, each with the input buffer as it is left: `WS_DECODE_NEED_MORE`,
`WS_DECODE_ERROR`, and `WS_DECODE_OK` with the payload, the size of the frame and its opcode. -/
inductive Decoded where
  | needMore (buf : Bytes)
  | error (buf : Bytes)
  | ok (buf payload : Bytes) (consumed : ℕ) (opcode : Opcode)
deriving DecidableEq

/-- The unmasking loop: `payload[i] ^= mask[i % 4]`. -/
def unmask (mask payload : Bytes) : Bytes :=
  payload.mapIdx fun i b => b ^^^ mask.getD (i % 4) 0

/-- The checks on the first two bytes, up to the end of the `switch`. -/
def checkHead (b0 b1 : UInt8) : Option Opcode :=
  if b0 &&& 0x70 ≠ 0 then none
  else if b1 &&& 0x80 = 0 then none
  else
    match opcodeOf b0 with
    | none => none
    | some op =>
        if b0 &&& 0x80 = 0 then none
        else if op.isControl ∧ 125 < (b1 &&& 0x7F) then none
        else if op = .close ∧ b1 &&& 0x7F = 1 then none
        else some op

/-- `header_len` and `payload_len`, from the second byte and the bytes behind it; `none` when
the extended length is not there yet. -/
def payloadSize (b1 : UInt8) (rest : Bytes) : Option (ℕ × ℕ) :=
  if b1 &&& 0x7F = 126 then
    if rest.length < 2 then none else some (4, beNat (rest.take 2))
  else if b1 &&& 0x7F = 127 then
    if rest.length < 8 then none else some (10, beNat (rest.take 8))
  else some (2, (b1 &&& 0x7F).toNat)

/-- `ws_decode_frame3` on the first `in_len` bytes of the input buffer. -/
def wsDecodeFrame3 : Bytes → Decoded
  | b0 :: b1 :: rest =>
      let buf := b0 :: b1 :: rest
      match checkHead b0 b1 with
      | none => .error buf
      | some op =>
          match payloadSize b1 rest with
          | none => .needMore buf
          | some (headerLen, payloadLen) =>
              if payloadLen > maxPayloadSize then .error buf
              else
                let frameTotal := headerLen + 4 + payloadLen
                if buf.length < frameTotal then .needMore buf
                else
                  let mask := (buf.drop headerLen).take 4
                  let payload := unmask mask ((buf.drop (headerLen + 4)).take payloadLen)
                  -- the payload is unmasked where it stands
                  .ok (buf.take (headerLen + 4) ++ payload ++ buf.drop frameTotal) payload
                    frameTotal op
  | buf => .needMore buf

/-- Only a whole frame is edited. -/
theorem eq_of_wsDecodeFrame3 {buf buf' : Bytes}
    (h : wsDecodeFrame3 buf = .needMore buf' ∨ wsDecodeFrame3 buf = .error buf') : buf' = buf := by
  unfold wsDecodeFrame3 at h
  grind

/-! ### More bytes -/

/-- The size of a frame, once known, does not depend on what follows. -/
theorem payloadSize_append {b1 : UInt8} {rest : Bytes} {n : ℕ × ℕ}
    (h : payloadSize b1 rest = some n) (t : Bytes) : payloadSize b1 (rest ++ t) = some n := by
  unfold payloadSize at h ⊢
  by_cases h126 : b1 &&& 0x7F = 126
  · by_cases hlen : rest.length < 2
    · simp [h126, hlen] at h
    · simp only [h126, hlen, if_true, if_false] at h ⊢
      rw [if_neg (by rw [List.length_append]; omega),
        List.take_append_of_le_length (by omega)]
      exact h
  · by_cases h127 : b1 &&& 0x7F = 127
    · by_cases hlen : rest.length < 8
      · simp [h127, hlen] at h
      · simp only [h127, hlen, if_true, if_false] at h ⊢
        rw [if_neg (by decide)] at h ⊢
        rw [if_neg (by rw [List.length_append]; omega),
          List.take_append_of_le_length (by omega)]
        exact h
    · simpa [h126, h127] using h

/-- An error stays an error when more bytes arrive. -/
theorem wsDecodeFrame3_error_append {buf : Bytes} (h : wsDecodeFrame3 buf = .error buf)
    (t : Bytes) : wsDecodeFrame3 (buf ++ t) = .error (buf ++ t) := by
  rcases buf with - | ⟨b0, - | ⟨b1, rest⟩⟩
  · simp [wsDecodeFrame3] at h
  · simp [wsDecodeFrame3] at h
  · simp only [wsDecodeFrame3, List.cons_append] at h ⊢
    cases hc : checkHead b0 b1 with
    | none => simp
    | some op =>
        simp only [hc] at h ⊢
        cases hs : payloadSize b1 rest with
        | none => simp [hs] at h
        | some n =>
            rw [payloadSize_append hs]
            simp only [hs] at h ⊢
            by_cases hmax : n.2 > maxPayloadSize
            · simp [hmax]
            · simp only [hmax, if_false] at h
              split at h <;> cases h

/-- A window of a buffer does not depend on the bytes behind the buffer. -/
theorem window_append {buf : Bytes} {i n : ℕ} (h : i + n ≤ buf.length) (t : Bytes) :
    ((buf ++ t).drop i).take n = (buf.drop i).take n := by
  have hrest : n ≤ (buf.drop i).length := by
    rw [List.length_drop]
    omega
  rw [List.drop_append_of_le_length (by omega), List.take_append_of_le_length hrest]

/-- An accepted frame is accepted in the same way when more bytes arrive. -/
theorem wsDecodeFrame3_ok_append {buf buf' payload : Bytes} {n : ℕ} {op : Opcode}
    (h : wsDecodeFrame3 buf = .ok buf' payload n op) (t : Bytes) :
    wsDecodeFrame3 (buf ++ t) = .ok (buf' ++ t) payload n op := by
  rcases buf with - | ⟨b0, - | ⟨b1, rest⟩⟩
  · simp [wsDecodeFrame3] at h
  · simp [wsDecodeFrame3] at h
  · simp only [wsDecodeFrame3, List.cons_append] at h ⊢
    cases hc : checkHead b0 b1 with
    | none => simp [hc] at h
    | some op =>
        simp only [hc] at h ⊢
        cases hs : payloadSize b1 rest with
        | none => simp [hs] at h
        | some n =>
            obtain ⟨headerLen, payloadLen⟩ := n
            rw [payloadSize_append hs]
            simp only [hs] at h ⊢
            by_cases hmax : payloadLen > maxPayloadSize
            · simp [hmax] at h
            · simp only [hmax, if_false] at h ⊢
              rw [← List.cons_append, ← List.cons_append]
              generalize b0 :: b1 :: rest = buf at h ⊢
              by_cases hlen : buf.length < headerLen + 4 + payloadLen
              · simp [hlen] at h
              · simp only [hlen, if_false, Decoded.ok.injEq] at h
                obtain ⟨rfl, rfl, rfl, rfl⟩ := h
                rw [if_neg (by rw [List.length_append]; omega), window_append (by omega),
                  window_append (by omega), List.take_append_of_le_length (by omega),
                  List.drop_append_of_le_length (by omega)]
                simp only [List.append_assoc]

/-- The decoder never waits with a whole frame of the largest size. -/
theorem length_of_needMore {buf : Bytes} (h : wsDecodeFrame3 buf = .needMore buf) :
    buf.length < maxPayloadSize + 14 := by
  rcases buf with - | ⟨b0, - | ⟨b1, rest⟩⟩
  · simp [maxPayloadSize]
  · simp [maxPayloadSize]
  · simp only [wsDecodeFrame3] at h
    cases hc : checkHead b0 b1 with
    | none => simp [hc] at h
    | some op =>
        simp only [hc] at h
        cases hs : payloadSize b1 rest with
        | none =>
            have hrest : rest.length < 8 := by
              unfold payloadSize at hs
              split at hs
              · split at hs
                · omega
                · cases hs
              · split at hs
                · split at hs
                  · assumption
                  · cases hs
                · cases hs
            simp only [List.length_cons]
            omega
        | some n =>
            obtain ⟨headerLen, payloadLen⟩ := n
            have hhead : headerLen ≤ 10 := by
              unfold payloadSize at hs
              grind
            simp only [hs] at h
            by_cases hmax : payloadLen > maxPayloadSize
            · simp [hmax] at h
            · simp only [hmax, if_false] at h
              split at h
              · omega
              · cases h

/-- An accepted frame lies inside the buffer, and what stands behind it is untouched. -/
theorem drop_of_ok {buf buf' payload : Bytes} {n : ℕ} {op : Opcode}
    (h : wsDecodeFrame3 buf = .ok buf' payload n op) :
    0 < n ∧ n ≤ buf.length ∧ buf'.drop n = buf.drop n := by
  rcases buf with - | ⟨b0, - | ⟨b1, rest⟩⟩
  · simp [wsDecodeFrame3] at h
  · simp [wsDecodeFrame3] at h
  · simp only [wsDecodeFrame3] at h
    cases hc : checkHead b0 b1 with
    | none => simp [hc] at h
    | some op =>
        simp only [hc] at h
        cases hs : payloadSize b1 rest with
        | none => simp [hs] at h
        | some n =>
            obtain ⟨headerLen, payloadLen⟩ := n
            simp only [hs] at h
            generalize b0 :: b1 :: rest = buf at h ⊢
            by_cases hmax : payloadLen > maxPayloadSize
            · simp [hmax] at h
            · simp only [hmax, if_false] at h
              by_cases hlen : buf.length < headerLen + 4 + payloadLen
              · simp [hlen] at h
              · simp only [hlen, if_false, Decoded.ok.injEq] at h
                obtain ⟨rfl, rfl, rfl, rfl⟩ := h
                refine ⟨by omega, by omega, List.drop_left' ?_⟩
                simp only [unmask, List.length_append, List.length_take, List.length_mapIdx,
                  List.length_drop]
                omega

/-! ### Legal frames -/

/-- The three ways to write the length of a payload. -/
inductive LengthForm where
  | short | medium | long

/-- The largest length each of them can carry. -/
def LengthForm.capacity : LengthForm → ℕ
  | .short => 125
  | .medium => 2 ^ 16 - 1
  | .long => 2 ^ 64 - 1

/-- A number as `k` bytes in network byte order. -/
def beBytes : ℕ → ℕ → Bytes
  | 0, _ => []
  | k + 1, n => beBytes k (n / 256) ++ [UInt8.ofNat n]

/-- The seven length bits of the second byte. -/
def LengthForm.bits : LengthForm → ℕ → UInt8
  | .short, n => UInt8.ofNat n
  | .medium, _ => 126
  | .long, _ => 127

/-- The extended length behind them. -/
def LengthForm.extension : LengthForm → ℕ → Bytes
  | .short, _ => []
  | .medium, n => beBytes 2 n
  | .long, n => beBytes 8 n

/-- A legal frame of a client. -/
structure Frame where
  opcode : Opcode
  form : LengthForm
  mask : Bytes
  payload : Bytes
  mask_length : mask.length = 4
  payload_le : payload.length ≤ maxPayloadSize
  form_fits : payload.length ≤ form.capacity
  control_short : opcode.isControl = true → form = .short
  close_ne_one : opcode = .close → payload.length ≠ 1

/-- The bytes of a frame, with the FIN bit and the mask bit set. -/
def Frame.wire (f : Frame) : Bytes :=
  (0x80 ||| f.opcode.code) :: (0x80 ||| f.form.bits f.payload.length) ::
    (f.form.extension f.payload.length ++ f.mask ++ unmask f.mask f.payload)

@[simp] theorem length_unmask (mask payload : Bytes) :
    (unmask mask payload).length = payload.length := List.length_mapIdx

/-- Masking twice with one key gives the payload back. -/
theorem unmask_unmask (mask payload : Bytes) : unmask mask (unmask mask payload) = payload := by
  refine List.ext_getElem (by simp) ?_
  intro i h₁ h₂
  simp only [unmask, List.getElem_mapIdx]
  rw [UInt8.xor_assoc, UInt8.xor_self, UInt8.xor_zero]

theorem length_beBytes (k n : ℕ) : (beBytes k n).length = k := by
  induction k generalizing n with
  | zero => rfl
  | succ k ih => simp [beBytes, ih]

theorem beNat_append_singleton (bs : Bytes) (b : UInt8) :
    beNat (bs ++ [b]) = beNat bs * 256 + b.toNat := by
  simp [beNat]

theorem beNat_lt (bs : Bytes) : beNat bs < 256 ^ bs.length := by
  induction bs using List.reverseRecOn with
  | nil => simp [beNat]
  | append_singleton bs b ih =>
      have hb := b.toNat_lt
      rw [beNat_append_singleton, List.length_append, List.length_singleton, pow_succ]
      omega

theorem beNat_beBytes (k n : ℕ) (h : n < 256 ^ k) : beNat (beBytes k n) = n := by
  induction k generalizing n with
  | zero =>
      obtain rfl : n = 0 := by simpa using h
      rfl
  | succ k ih =>
      have hdiv : n / 256 < 256 ^ k := by
        rw [Nat.div_lt_iff_lt_mul (by norm_num), ← pow_succ]
        exact h
      rw [beBytes, beNat_append_singleton, ih _ hdiv, UInt8.toNat_ofNat']
      omega

theorem beBytes_beNat (bs : Bytes) : beBytes bs.length (beNat bs) = bs := by
  induction bs using List.reverseRecOn with
  | nil => rfl
  | append_singleton bs b ih =>
      have hb := b.toNat_lt
      have hdiv : (beNat bs * 256 + b.toNat) / 256 = beNat bs := by omega
      have hofNat : UInt8.ofNat (beNat bs * 256 + b.toNat) = b := by
        apply UInt8.toNat_inj.mp
        rw [UInt8.toNat_ofNat']
        omega
      rw [List.length_append, List.length_singleton, beNat_append_singleton, beBytes, hdiv, ih,
        hofNat]

/-- The first byte of a legal frame: no reserved bit, FIN, and an opcode. -/
theorem head_byte_iff : ∀ b0 : UInt8, ∀ op : Opcode,
    (b0 &&& 0x70 = 0 ∧ b0 &&& 0x80 ≠ 0 ∧ opcodeOf b0 = some op) ↔ b0 = 0x80 ||| op.code := by
  intro b0 op
  revert b0
  cases op <;> decide +kernel

/-- The second byte of a legal frame: the mask bit and the seven length bits. -/
theorem mask_byte_iff : ∀ b1 : UInt8,
    b1 &&& 0x80 ≠ 0 ↔ b1 = 0x80 ||| (b1 &&& 0x7F) := by
  decide +kernel

theorem length_bits_of_lt : ∀ c : UInt8, c < 0x80 →
    (0x80 ||| c) &&& 0x80 ≠ 0 ∧ (0x80 ||| c) &&& 0x7F = c := by
  decide +kernel

theorem short_length_le : ∀ b1 : UInt8, b1 &&& 0x7F ≠ 126 → b1 &&& 0x7F ≠ 127 →
    (b1 &&& 0x7F).toNat ≤ 125 := by
  decide +kernel

/-- What the checks on the first two bytes let through. -/
theorem checkHead_eq_some_iff {b0 b1 : UInt8} {op : Opcode} :
    checkHead b0 b1 = some op ↔
      b0 = 0x80 ||| op.code ∧ b1 &&& 0x80 ≠ 0 ∧
        (op.isControl = true → b1 &&& 0x7F ≤ 125) ∧ (op = .close → b1 &&& 0x7F ≠ 1) := by
  rw [← head_byte_iff]
  unfold checkHead
  by_cases hrsv : b0 &&& 0x70 = 0
  · by_cases hmask : b1 &&& 0x80 = 0
    · simp [hrsv, hmask]
    · cases hop : opcodeOf b0 with
      | none => simp [hrsv, hmask]
      | some o =>
          simp only [hrsv, hmask, ne_eq, not_true_eq_false, if_false, not_false_eq_true,
            true_and, Option.some.injEq]
          by_cases hfin : b0 &&& 0x80 = 0
          · simp [hfin]
          · simp only [hfin, if_false, not_false_eq_true, true_and]
            by_cases hctl : o.isControl = true ∧ 125 < (b1 &&& 0x7F)
            · rw [if_pos hctl]
              constructor
              · intro h
                cases h
              · rintro ⟨rfl, hle, -⟩
                exact absurd (hle hctl.1) (UInt8.not_le.mpr hctl.2)
            · rw [if_neg hctl]
              rw [not_and, UInt8.not_lt] at hctl
              by_cases hone : o = .close ∧ b1 &&& 0x7F = 1
              · rw [if_pos hone]
                constructor
                · intro h
                  cases h
                · rintro ⟨rfl, -, hne⟩
                  exact absurd hone.2 (hne hone.1)
              · rw [if_neg hone, Option.some.injEq]
                rw [not_and] at hone
                constructor
                · rintro rfl
                  exact ⟨rfl, hctl, hone⟩
                · rintro ⟨rfl, -, -⟩
                  rfl
  · simp [hrsv]

/-- The decoder on a frame given by its parts. -/
theorem wsDecodeFrame3_parts {b0 b1 : UInt8} {op : Opcode} {ext mask data t : Bytes} {n : ℕ}
    (hhead : checkHead b0 b1 = some op)
    (hsize : payloadSize b1 (ext ++ mask ++ data ++ t) = some (ext.length + 2, n))
    (hmask : mask.length = 4) (hdata : data.length = n) (hle : n ≤ maxPayloadSize) :
    wsDecodeFrame3 (b0 :: b1 :: (ext ++ mask ++ data ++ t)) =
      .ok (b0 :: b1 :: (ext ++ mask ++ unmask mask data ++ t)) (unmask mask data)
        (ext.length + 2 + 4 + n) op := by
  subst hdata
  have hdrop : (b0 :: b1 :: (ext ++ mask ++ data ++ t)).drop (ext.length + 2) =
      mask ++ (data ++ t) := by
    simp
  have hdrop₄ : (b0 :: b1 :: (ext ++ mask ++ data ++ t)).drop (ext.length + 2 + 4) =
      data ++ t := by
    rw [← List.drop_drop, hdrop, ← hmask, List.drop_left]
  have htake₄ : (b0 :: b1 :: (ext ++ mask ++ data ++ t)).take (ext.length + 2 + 4) =
      b0 :: b1 :: (ext ++ mask) := by
    rw [show b0 :: b1 :: (ext ++ mask ++ data ++ t) =
      (b0 :: b1 :: (ext ++ mask)) ++ (data ++ t) by simp]
    exact List.take_left' (by simp only [List.length_cons, List.length_append]; omega)
  have hend : (b0 :: b1 :: (ext ++ mask ++ data ++ t)).drop
      (ext.length + 2 + 4 + data.length) = t := by
    rw [← List.drop_drop, hdrop₄, List.drop_left]
  simp only [wsDecodeFrame3, hhead, hsize]
  rw [if_neg (by omega), if_neg (by simp only [List.length_cons, List.length_append]; omega),
    hdrop, hdrop₄, htake₄, hend, List.take_left' hmask, List.take_left' rfl]
  simp only [List.cons_append, List.append_assoc]

/-- The size fields of a legal frame. -/
theorem payloadSize_wire (f : Frame) (t : Bytes) :
    payloadSize (0x80 ||| f.form.bits f.payload.length)
        (f.form.extension f.payload.length ++ t) =
      some ((f.form.extension f.payload.length).length + 2, f.payload.length) := by
  have hfits := f.form_fits
  cases hform : f.form with
  | short =>
      rw [hform] at hfits
      simp only [LengthForm.capacity] at hfits
      have hn : (UInt8.ofNat f.payload.length).toNat = f.payload.length := by
        rw [UInt8.toNat_ofNat']
        omega
      obtain ⟨-, hbits⟩ := length_bits_of_lt (UInt8.ofNat f.payload.length)
        (UInt8.lt_iff_toNat_lt.mpr (by rw [hn]; exact lt_of_le_of_lt hfits (by decide)))
      have hne : ∀ k : UInt8, 125 < k.toNat → UInt8.ofNat f.payload.length ≠ k := by
        rintro k hk rfl
        omega
      simp only [payloadSize, LengthForm.bits, LengthForm.extension, hbits, hn]
      rw [if_neg (hne _ (by decide)), if_neg (hne _ (by decide))]
      rfl
  | medium =>
      rw [hform] at hfits
      have hlt : f.payload.length < 256 ^ 2 := by
        simp only [LengthForm.capacity] at hfits
        omega
      have hlen := length_beBytes 2 f.payload.length
      have hbits : (0x80 ||| LengthForm.medium.bits f.payload.length) &&& 0x7F = 126 := by
        rw [LengthForm.bits]
        decide
      rw [payloadSize, hbits, if_pos rfl, LengthForm.extension,
        if_neg (by rw [List.length_append, hlen]; omega), List.take_left' hlen,
        beNat_beBytes _ _ hlt, hlen]
  | long =>
      rw [hform] at hfits
      have hlt : f.payload.length < 256 ^ 8 := by
        simp only [LengthForm.capacity] at hfits
        omega
      have hlen := length_beBytes 8 f.payload.length
      have hbits : (0x80 ||| LengthForm.long.bits f.payload.length) &&& 0x7F = 127 := by
        rw [LengthForm.bits]
        decide
      rw [payloadSize, hbits, if_neg (by decide), if_pos rfl, LengthForm.extension,
        if_neg (by rw [List.length_append, hlen]; omega), List.take_left' hlen,
        beNat_beBytes _ _ hlt, hlen]

/-- The first two bytes of a legal frame pass the checks. -/
theorem checkHead_wire (f : Frame) :
    checkHead (0x80 ||| f.opcode.code) (0x80 ||| f.form.bits f.payload.length) =
      some f.opcode := by
  have hlt : f.form.bits f.payload.length < 0x80 := by
    have hfits := f.form_fits
    cases hform : f.form with
    | short =>
        rw [hform] at hfits
        simp only [LengthForm.capacity] at hfits
        rw [UInt8.lt_iff_toNat_lt, LengthForm.bits, UInt8.toNat_ofNat']
        exact lt_of_le_of_lt (Nat.mod_le _ _) (lt_of_le_of_lt hfits (by decide))
    | medium =>
        rw [LengthForm.bits]
        decide
    | long =>
        rw [LengthForm.bits]
        decide
  obtain ⟨hmask, hbits⟩ := length_bits_of_lt _ hlt
  rw [checkHead_eq_some_iff]
  refine ⟨rfl, hmask, ?_, ?_⟩
  · intro hctl
    have hfits := f.form_fits
    rw [hbits, f.control_short hctl, UInt8.le_iff_toNat_le, LengthForm.bits,
      UInt8.toNat_ofNat']
    rw [f.control_short hctl] at hfits
    exact (Nat.mod_le _ _).trans hfits
  · intro hclose
    have hshort := f.control_short (by rw [hclose]; rfl)
    have hfits := f.form_fits
    rw [hshort] at hfits
    simp only [LengthForm.capacity] at hfits
    rw [hbits, hshort, LengthForm.bits, ne_eq, ← UInt8.toNat_inj, UInt8.toNat_ofNat',
      Nat.mod_eq_of_lt (by omega)]
    exact f.close_ne_one hclose

/-- The decoder gives a legal frame back, whatever stands behind it. -/
theorem wsDecodeFrame3_wire (f : Frame) (t : Bytes) :
    ∃ buf, wsDecodeFrame3 (f.wire ++ t) = .ok buf f.payload f.wire.length f.opcode := by
  have hsize := payloadSize_wire f (f.mask ++ (unmask f.mask f.payload ++ t))
  simp only [← List.append_assoc] at hsize
  have h := wsDecodeFrame3_parts (checkHead_wire f) hsize f.mask_length
    (length_unmask f.mask f.payload) f.payload_le
  rw [unmask_unmask] at h
  have hlen : f.wire.length = (f.form.extension f.payload.length).length + 2 + 4 +
      f.payload.length := by
    simp only [Frame.wire, List.length_cons, List.length_append, length_unmask, f.mask_length]
    omega
  rw [hlen]
  exact ⟨_, h⟩

/-- The form and the length a size field was read from. -/
theorem exists_form_of_payloadSize {b1 : UInt8} {rest : Bytes} {headerLen n : ℕ}
    (h : payloadSize b1 rest = some (headerLen, n)) :
    ∃ form : LengthForm, n ≤ form.capacity ∧ b1 &&& 0x7F = form.bits n ∧
      rest.take (headerLen - 2) = form.extension n ∧
      headerLen = (form.extension n).length + 2 ∧
      (b1 &&& 0x7F ≤ 125 → form = .short) := by
  have hbe : ∀ k : ℕ, ¬rest.length < k → beBytes k (beNat (rest.take k)) = rest.take k := by
    intro k hk
    have hlen : (rest.take k).length = k := by
      rw [List.length_take]
      omega
    have := beBytes_beNat (rest.take k)
    rwa [hlen] at this
  have hlt : ∀ k : ℕ, beNat (rest.take k) < 256 ^ k := by
    intro k
    refine (beNat_lt (rest.take k)).trans_le (Nat.pow_le_pow_right (by norm_num) ?_)
    exact List.length_take_le _ _
  unfold payloadSize at h
  split at h
  · rename_i h126
    split at h
    · cases h
    · rename_i hrest
      simp only [Option.some.injEq, Prod.mk.injEq] at h
      obtain ⟨rfl, rfl⟩ := h
      refine ⟨.medium, Nat.le_sub_one_of_lt (hlt 2), h126, (hbe 2 hrest).symm, ?_, ?_⟩
      · rw [LengthForm.extension, length_beBytes]
      · rw [h126]
        intro hle
        exact absurd hle (by decide)
  · split at h
    · rename_i h127
      split at h
      · cases h
      · rename_i hrest
        simp only [Option.some.injEq, Prod.mk.injEq] at h
        obtain ⟨rfl, rfl⟩ := h
        refine ⟨.long, Nat.le_sub_one_of_lt (hlt 8), h127, (hbe 8 hrest).symm, ?_, ?_⟩
        · rw [LengthForm.extension, length_beBytes]
        · rw [h127]
          intro hle
          exact absurd hle (by decide)
    · rename_i h126 h127
      simp only [Option.some.injEq, Prod.mk.injEq] at h
      obtain ⟨rfl, rfl⟩ := h
      refine ⟨.short, short_length_le b1 h126 h127, ?_, rfl, rfl, fun _ => rfl⟩
      rw [LengthForm.bits, UInt8.ofNat_toNat]

/-- The decoder accepts nothing but legal frames. -/
theorem exists_frame_of_ok {buf buf' payload : Bytes} {n : ℕ} {op : Opcode}
    (h : wsDecodeFrame3 buf = .ok buf' payload n op) :
    ∃ f : Frame, f.wire = buf.take n ∧ f.payload = payload ∧ f.opcode = op := by
  rcases buf with - | ⟨b0, - | ⟨b1, rest⟩⟩
  · simp [wsDecodeFrame3] at h
  · simp [wsDecodeFrame3] at h
  · simp only [wsDecodeFrame3] at h
    cases hc : checkHead b0 b1 with
    | none => simp [hc] at h
    | some op =>
        simp only [hc] at h
        cases hs : payloadSize b1 rest with
        | none => simp [hs] at h
        | some n =>
            obtain ⟨headerLen, payloadLen⟩ := n
            simp only [hs] at h
            by_cases hmax : payloadLen > maxPayloadSize
            · simp [hmax] at h
            · simp only [hmax, if_false] at h
              by_cases hlen : (b0 :: b1 :: rest).length < headerLen + 4 + payloadLen
              · rw [if_pos hlen] at h
                cases h
              · rw [if_neg hlen, Decoded.ok.injEq] at h
                obtain ⟨-, rfl, rfl, rfl⟩ := h
                obtain ⟨form, hcap, hbits, hext, rfl, hshort⟩ := exists_form_of_payloadSize hs
                obtain ⟨hb0, hb1, hctl, hone⟩ := checkHead_eq_some_iff.mp hc
                generalize hk : (form.extension payloadLen).length = k at *
                simp only [List.length_cons] at hlen
                rw [show k + 2 - 2 = k by omega] at hext
                simp only [List.drop_succ_cons, show k + 2 + 4 = (k + 4) + 2 by omega]
                have hmask : ((rest.drop k).take 4).length = 4 := by
                  rw [List.length_take, List.length_drop]
                  omega
                have hdata : ((rest.drop (k + 4)).take payloadLen).length = payloadLen := by
                  rw [List.length_take, List.length_drop]
                  omega
                refine ⟨⟨op, form, (rest.drop k).take 4,
                  unmask ((rest.drop k).take 4) ((rest.drop (k + 4)).take payloadLen), hmask,
                  ?_, ?_, ?_, ?_⟩, ?_, rfl, rfl⟩
                · rw [length_unmask, hdata]
                  omega
                · rwa [length_unmask, hdata]
                · intro hcontrol
                  exact hshort (hctl hcontrol)
                · intro hclose hp
                  rw [length_unmask, hdata] at hp
                  subst hp
                  have hform := hshort (hctl (by rw [hclose]; rfl))
                  rw [hform] at hbits
                  exact hone hclose hbits
                · simp only [Frame.wire, length_unmask, hdata, unmask_unmask]
                  rw [hb0.symm, ← hbits, ← (mask_byte_iff b1).mp hb1, ← hext,
                    show k + 4 + 2 + payloadLen = k + 4 + payloadLen + 2 by omega,
                    List.take_succ_cons, List.take_succ_cons, List.take_add, List.take_add]

end Ws
