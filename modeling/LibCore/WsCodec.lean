import LibCore.ServerQueue

/-!
# The WebSocket Codec

The other functions of `ws_protocol.c` around `ws_decode_frame3`: the builders `ws_build_frame` and
`ws_build_text_frame`, and the two older decoders, which copy the payload into a buffer of their caller.

The bytes that an older decoder writes are those from the start of the buffer on.

## Main definitions

* `wsBuildFrame`, `wsBuildTextFrame`: the builders.
* `LengthForm.shortest`: the shortest form of a length.
* `wsDecodeFrame`, `wsDecodeFrame2`: the older decoders.

## Main results

* `frame_codec`: whole frames, their prefixes, and what the builders emit.
* `ok_length_form`: which forms of a length are accepted.
* `decodersAgree_iff`: the decoders agree, and the oldest one writes behind the buffer exactly when the payload
  fills it.
-/

open CString

namespace Ws

/-! ### Builders -/

/-- `ws_build_text_frame`: the bytes it writes, `[]` for `0`. The message goes up to its NUL. -/
def wsBuildTextFrame (msg : Bytes) (maxLen : ℕ) : Bytes :=
  let msg := cstr msg
  if (Server.frameHeader 0x81 msg.length).length + msg.length > maxLen then []
  else Server.frameHeader 0x81 msg.length ++ msg

/-- `ws_build_frame`: the bytes it writes, `[]` for `0`. -/
def wsBuildFrame (opcode : UInt8) (msg : Bytes) (maxLen : ℕ) : Bytes :=
  if msg.length > maxPayloadSize then []
  else if opcode ≠ 0x1 ∧ opcode ≠ 0x2 ∧ opcode ≠ 0x8 ∧ opcode ≠ 0x9 ∧ opcode ≠ 0xA then []
  else if opcode &&& 0x08 ≠ 0 ∧ msg.length > 125 then []
  else
    let header := Server.frameHeader (0x80 ||| (opcode &&& 0x0F)) msg.length
    if header.length > maxLen ∨ msg.length > maxLen - header.length then [] else header ++ msg

/-- The shortest form of a length. -/
def LengthForm.shortest (n : ℕ) : LengthForm := if n ≤ 125 then .short else if n ≤ 65535 then .medium else .long

/-- A frame of a builder as a client sends it: with the mask bit, the mask and the masked payload. -/
def masked (mask : Bytes) (n : ℕ) : Bytes → Bytes
  | b0 :: b1 :: rest =>
      b0 :: (0x80 ||| b1) :: (rest.take (rest.length - n) ++ mask ++ unmask mask (rest.drop (rest.length - n)))
  | frame => frame

/-- The head that the builders emit, in the shortest form. -/
theorem frameHeader_eq (first : UInt8) (n : ℕ) :
    Server.frameHeader first n =
      first :: (LengthForm.shortest n).bits n :: (LengthForm.shortest n).extension n := by
  rw [Server.frameHeader, LengthForm.shortest]
  split_ifs
  · rfl
  · simp only [LengthForm.bits, LengthForm.extension, beBytes, List.nil_append, List.cons_append,
      Nat.shiftRight_eq_div_pow]
  · simp only [LengthForm.bits, LengthForm.extension, beBytes, List.nil_append, List.cons_append,
      Nat.shiftRight_eq_div_pow, Nat.div_div_eq_div_mul]

/-- A payload that fits is emitted behind its head. -/
theorem wsBuildFrame_eq {op : Opcode} {msg : Bytes} {maxLen : ℕ} (hmax : msg.length ≤ maxPayloadSize)
    (hctl : op.isControl = true → msg.length ≤ 125)
    (hfits : (Server.frameHeader (0x80 ||| op.code) msg.length).length + msg.length ≤ maxLen) :
    wsBuildFrame op.code msg maxLen = Server.frameHeader (0x80 ||| op.code) msg.length ++ msg := by
  have hcode : op.code &&& 0x0F = op.code := by cases op <;> rfl
  have hknown : ¬(op.code ≠ 0x1 ∧ op.code ≠ 0x2 ∧ op.code ≠ 0x8 ∧ op.code ≠ 0x9 ∧ op.code ≠ 0xA) := by
    cases op <;> decide
  have hshort : ¬(op.code &&& 0x08 ≠ 0 ∧ msg.length > 125) := by
    rintro ⟨hbit, hlong⟩
    have hcontrol : op.isControl = true := by
      cases op <;> first | rfl | exact absurd rfl hbit
    exact absurd (hctl hcontrol) (Nat.not_le.mpr hlong)
  rw [wsBuildFrame, if_neg (Nat.not_lt.mpr hmax), if_neg hknown, if_neg hshort, hcode]
  exact if_neg (by omega)

/-- The builders emit the same frame for a string. -/
theorem wsBuildFrame_text {msg : Bytes} (hmax : (cstr msg).length ≤ maxPayloadSize) (maxLen : ℕ) :
    wsBuildFrame 0x1 (cstr msg) maxLen = wsBuildTextFrame msg maxLen := by
  rw [wsBuildTextFrame]
  generalize cstr msg = msg at hmax ⊢
  by_cases hfits : (Server.frameHeader 0x81 msg.length).length + msg.length > maxLen
  · rw [if_pos hfits, wsBuildFrame, if_neg (Nat.not_lt.mpr hmax), if_neg (by decide), if_neg fun h => h.1 rfl]
    refine if_pos ?_
    change (Server.frameHeader 0x81 msg.length).length > maxLen ∨
      msg.length > maxLen - (Server.frameHeader 0x81 msg.length).length
    omega
  · rw [if_neg hfits]
    exact @wsBuildFrame_eq .text msg maxLen hmax (fun h => absurd h Bool.false_ne_true) (Nat.not_lt.mp hfits)

/-- A legal frame in the shortest form is what a builder emits, with the mask bit and the mask. -/
theorem Frame.wire_eq_masked (f : Frame) (hform : f.form = .shortest f.payload.length) :
    f.wire = masked f.mask f.payload.length
      (Server.frameHeader (0x80 ||| f.opcode.code) f.payload.length ++ f.payload) := by
  rw [frameHeader_eq, Frame.wire, hform, List.cons_append, List.cons_append, masked, List.length_append,
    Nat.add_sub_cancel, List.take_left, List.drop_left]

/-! ### Prefixes -/

/-- The decoder waits on every strict prefix of a legal frame. -/
theorem wsDecodeFrame3_of_strict (f : Frame) {p : Bytes} (hp : p <+: f.wire) (hne : p ≠ f.wire) :
    wsDecodeFrame3 p = .needMore p := by
  obtain ⟨t, ht⟩ := hp
  obtain ⟨buf, hwire⟩ := wsDecodeFrame3_wire f []
  rw [List.append_nil, ← ht] at hwire
  cases hdecode : wsDecodeFrame3 p with
  | needMore buf' => rw [eq_of_wsDecodeFrame3 (.inl hdecode)]
  | error buf' =>
      rw [eq_of_wsDecodeFrame3 (.inr hdecode)] at hdecode
      rw [wsDecodeFrame3_error_append hdecode t] at hwire
      cases hwire
  | ok buf' payload n op =>
      -- the frame would end inside of the prefix
      obtain ⟨-, hn, -⟩ := drop_of_ok hdecode
      rw [wsDecodeFrame3_ok_append hdecode t] at hwire
      obtain ⟨-, -, hlen, -⟩ := Decoded.ok.inj hwire
      rw [hlen, List.length_append] at hn
      obtain rfl : t = [] := List.length_eq_zero_iff.mp (by omega)
      exact (hne (by rw [← ht, List.append_nil])).elim

/-- **The frame codec** -/
theorem frame_codec (f : Frame) :
    (∀ t, ∃ buf, wsDecodeFrame3 (f.wire ++ t) = .ok buf f.payload f.wire.length f.opcode) ∧
      (∀ p, p <+: f.wire → p ≠ f.wire → wsDecodeFrame3 p = .needMore p) ∧
      (∀ buf t,
        (∀ buf' payload n op, wsDecodeFrame3 buf = .ok buf' payload n op →
          wsDecodeFrame3 (buf ++ t) = .ok (buf' ++ t) payload n op) ∧
        (wsDecodeFrame3 buf = .error buf → wsDecodeFrame3 (buf ++ t) = .error (buf ++ t))) ∧
      (∀ msg maxLen, (cstr msg).length ≤ maxPayloadSize →
        wsBuildFrame 0x1 (cstr msg) maxLen = wsBuildTextFrame msg maxLen) ∧
      (f.form = .shortest f.payload.length → ∀ maxLen, f.payload.length + 10 ≤ maxLen →
        f.wire = masked f.mask f.payload.length (wsBuildFrame f.opcode.code f.payload maxLen)) := by
  refine ⟨wsDecodeFrame3_wire f, fun p hp hne => wsDecodeFrame3_of_strict f hp hne,
    fun buf t => ⟨fun _ _ _ _ h => wsDecodeFrame3_ok_append h t, fun h => wsDecodeFrame3_error_append h t⟩, fun msg maxLen hmax => wsBuildFrame_text hmax maxLen,
    fun hform maxLen hfits => ?_⟩
  · have hctl : f.opcode.isControl = true → f.payload.length ≤ 125 := by
      intro hcontrol
      have hcap := f.form_fits
      rw [f.control_short hcontrol] at hcap
      exact hcap
    have hheader : (Server.frameHeader (0x80 ||| f.opcode.code) f.payload.length).length ≤ 10 := by
      rw [Server.frameHeader]
      split_ifs <;> simp
    rw [wsBuildFrame_eq f.payload_le hctl (by omega)]
    exact f.wire_eq_masked hform

/-! ### Forms of the length -/

/-- A form that carries a long payload, or that of a control frame, is the shortest. -/
theorem Frame.form_eq_shortest (f : Frame) (h : f.opcode.isControl = true ∨ 65536 ≤ f.payload.length) :
    f.form = .shortest f.payload.length := by
  have hfits := f.form_fits
  rcases h with hcontrol | hlong
  · rw [f.control_short hcontrol] at hfits ⊢
    exact (if_pos hfits).symm
  · rw [LengthForm.shortest, if_neg (by omega), if_neg (by omega)]
    cases hform : f.form with
    | short =>
        rw [hform] at hfits
        simp only [LengthForm.capacity] at hfits
        omega
    | medium =>
        rw [hform] at hfits
        simp only [LengthForm.capacity] at hfits
        omega
    | long => rfl

/-- Frames with the same parts have the same bytes. -/
theorem Frame.wire_congr {f g : Frame} (hop : g.opcode = f.opcode) (hform : g.form = f.form)
    (hmask : g.mask = f.mask) (hpayload : g.payload = f.payload) : g.wire = f.wire := by
  rw [Frame.wire, Frame.wire, hop, hform, hmask, hpayload]

/-- **The forms of the length that are accepted** -/
theorem ok_length_form {buf buf' payload : Bytes} {n : ℕ} {op : Opcode}
    (h : wsDecodeFrame3 buf = .ok buf' payload n op) :
    ∃ f : Frame, f.wire = buf.take n ∧ f.payload = payload ∧ f.opcode = op ∧
      (op.isControl = true ∨ 65536 ≤ payload.length → f.form = .shortest payload.length) ∧
      ∀ g : Frame, g.opcode = op → g.mask = f.mask → g.payload = payload →
        (∀ t, ∃ buf'', wsDecodeFrame3 (g.wire ++ t) = .ok buf'' payload g.wire.length op) ∧
        (op.isControl = true ∨ 65536 ≤ payload.length → g.wire = buf.take n) := by
  obtain ⟨f, hwire, rfl, rfl⟩ := exists_frame_of_ok h
  refine ⟨f, hwire, rfl, rfl, f.form_eq_shortest, fun g hop hmask hpayload => ⟨fun t => ?_, fun hshort => ?_⟩⟩
  · rw [← hpayload, ← hop]
    exact wsDecodeFrame3_wire g t
  · have hg : g.form = .shortest g.payload.length := g.form_eq_shortest (by rwa [hop, hpayload])
    rw [← hwire]
    refine Frame.wire_congr hop ?_ hmask hpayload
    rw [hg, hpayload, f.form_eq_shortest hshort]

/-- One byte with its length in 16 bits. -/
def overlong : Bytes := [0x82, 0xFE, 0, 1, 0, 0, 0, 0, 65]

theorem ok_length_form_sample :
    ∃ f : Frame, f.wire = overlong.take 9 ∧ f.payload = [65] ∧ f.opcode = .binary := by
  obtain ⟨f, hwire, hpayload, hop, -⟩ :=
    ok_length_form (show wsDecodeFrame3 overlong = .ok overlong [65] 9 .binary by decide)
  exact ⟨f, hwire, hpayload, hop⟩

/-- The decoder accepts a length that is not in the shortest form. -/
theorem overlong_accepted :
    wsDecodeFrame3 overlong = .ok overlong [65] 9 .binary ∧
      ¬∃ f : Frame, f.wire = overlong.take 9 ∧ f.payload = [65] ∧ f.form = .shortest 1 := by
  refine ⟨by decide, ?_⟩
  rintro ⟨f, hwire, hpayload, hform⟩
  rw [Frame.wire, hform, hpayload] at hwire
  have hsecond : some (0x80 ||| (LengthForm.shortest 1).bits 1) = some (0xFE : UInt8) :=
    congrArg (fun w : Bytes => w[1]?) hwire
  exact absurd hsecond (by decide)

/-! ### The older decoders -/

/-- The copying loop of the older decoders, with the terminator behind the payload. -/
def copyOut (inBuf : Bytes) (headerLen payloadLen : ℕ) : Bytes :=
  (List.range payloadLen).map (fun i => inBuf.getD (headerLen + 4 + i) 0 ^^^ inBuf.getD (headerLen + i % 4) 0) ++ [0]

/-- `ws_decode_frame`: its return value and the bytes it writes to `out_msg`. -/
def wsDecodeFrame (inBuf : Bytes) (maxOut : ℕ) : ℤ × Bytes :=
  if inBuf.length < 6 then (-1, [])
  else
    match inBuf with
    | b0 :: b1 :: rest =>
        if b0 &&& 0x0F = 0x8 then (-1, [])
        else if (b1 >>> 7) &&& 1 = 0 then (-1, [])
        else if b1 &&& 0x7F = 126 ∧ inBuf.length < 8 then (-1, [])
        else if b1 &&& 0x7F = 127 ∧ inBuf.length < 14 then (-1, [])
        else
          match payloadSize b1 rest with
          | none => (-1, [])
          | some (headerLen, payloadLen) =>
              if payloadLen > maxOut then (-1, [])
              else if inBuf.length < (headerLen + 4 + payloadLen) % 2 ^ 64 then (-1, [])
              else (payloadLen, copyOut inBuf headerLen payloadLen)
    | _ => (-1, [])

/-- The results of `ws_decode_frame2`. -/
structure Decoded2 where
  ret : ℤ
  consumed : ℕ
  isPing : Bool
  outMsg : Bytes

/-- `ws_decode_frame2`: its results and the bytes it writes to `out_msg`. -/
def wsDecodeFrame2 (inBuf : Bytes) (maxOut : ℕ) : Decoded2 :=
  match inBuf with
  | b0 :: b1 :: rest =>
      if (b1 >>> 7) &&& 1 = 0 then ⟨-2, 0, false, []⟩
      else
        match payloadSize b1 rest with
        | none => ⟨0, 0, false, []⟩
        | some (headerLen, payloadLen) =>
            if payloadLen > maxPayloadSize then ⟨-2, 0, false, []⟩
            else if payloadLen + 1 > maxOut then ⟨-2, 0, false, []⟩
            else if inBuf.length < headerLen + 4 + payloadLen then ⟨0, 0, false, []⟩
            else
              ⟨if b0 &&& 0x0F = 0x8 then -1 else payloadLen, headerLen + 4 + payloadLen, b0 &&& 0x0F = 0x9,
                copyOut inBuf headerLen payloadLen⟩
  | _ => ⟨0, 0, false, []⟩

/-- The older decoders deliver what `ws_decode_frame3` does, and write within `out_msg`. -/
def DecodersAgree (inBuf : Bytes) (maxOut : ℕ) : Prop :=
  (∀ buf' payload n op, wsDecodeFrame3 inBuf = .ok buf' payload n op → op = .text ∨ op = .binary →
    payload.length < maxOut →
      wsDecodeFrame inBuf maxOut = ((payload.length : ℤ), payload ++ [0]) ∧
        (wsDecodeFrame2 inBuf maxOut).ret = payload.length ∧ (wsDecodeFrame2 inBuf maxOut).consumed = n ∧
        (wsDecodeFrame2 inBuf maxOut).outMsg = payload ++ [0]) ∧
    (wsDecodeFrame inBuf maxOut).2.length ≤ maxOut ∧ (wsDecodeFrame2 inBuf maxOut).outMsg.length ≤ maxOut

/-- A whole masked frame, not a close frame, with a payload that fills `out_msg`. -/
def FillsOutput (inBuf : Bytes) (maxOut : ℕ) : Prop :=
  ∃ b0 b1 rest headerLen, inBuf = b0 :: b1 :: rest ∧ b0 &&& 0x0F ≠ 0x8 ∧ (b1 >>> 7) &&& 1 ≠ 0 ∧
    payloadSize b1 rest = some (headerLen, maxOut) ∧ headerLen + 4 ≤ inBuf.length ∧
    (headerLen + 4 + maxOut) % 2 ^ 64 ≤ inBuf.length

theorem length_copyOut (inBuf : Bytes) (headerLen payloadLen : ℕ) :
    (copyOut inBuf headerLen payloadLen).length = payloadLen + 1 := by
  rw [copyOut, List.length_append, List.length_map, List.length_range, List.length_singleton]

/-- The copying loop unmasks what `ws_decode_frame3` unmasks in place. -/
theorem copyOut_eq {inBuf : Bytes} {headerLen payloadLen : ℕ} (hlen : headerLen + 4 + payloadLen ≤ inBuf.length) :
    copyOut inBuf headerLen payloadLen =
      unmask ((inBuf.drop headerLen).take 4) ((inBuf.drop (headerLen + 4)).take payloadLen) ++ [0] := by
  rw [copyOut]
  congr 1
  refine List.ext_getElem ?_ fun i h₁ h₂ => ?_
  · simp only [length_unmask, List.length_map, List.length_range, List.length_take, List.length_drop]
    omega
  · simp only [List.length_map, List.length_range] at h₁
    have hmod : i % 4 < 4 := Nat.mod_lt _ (by norm_num)
    simp only [unmask, List.getElem_map, List.getElem_range, List.getElem_mapIdx, List.getElem_take,
      List.getElem_drop, List.getD_eq_getElem?_getD, List.getElem?_take, if_pos hmod, List.getElem?_drop]
    rw [List.getElem?_eq_getElem (by omega), Option.getD_some]

theorem mask_bit_iff : ∀ b1 : UInt8, (b1 >>> 7) &&& 1 = 0 ↔ b1 &&& 0x80 = 0 := by
  decide +kernel

/-- The size of the head. -/
theorem headerLen_of_payloadSize {b1 : UInt8} {rest : Bytes} {headerLen n : ℕ}
    (h : payloadSize b1 rest = some (headerLen, n)) :
    headerLen = if b1 &&& 0x7F = 126 then 4 else if b1 &&& 0x7F = 127 then 10 else 2 := by
  rw [payloadSize] at h
  split_ifs at h ⊢ <;> cases h <;> rfl

/-- What `ws_decode_frame3` has checked. -/
theorem ok_cases {inBuf buf' payload : Bytes} {n : ℕ} {op : Opcode}
    (h : wsDecodeFrame3 inBuf = .ok buf' payload n op) :
    ∃ b0 b1 rest headerLen payloadLen, inBuf = b0 :: b1 :: rest ∧ checkHead b0 b1 = some op ∧
      payloadSize b1 rest = some (headerLen, payloadLen) ∧ payloadLen ≤ maxPayloadSize ∧
      n = headerLen + 4 + payloadLen ∧ n ≤ inBuf.length ∧ payload.length = payloadLen ∧
      payload = unmask ((inBuf.drop headerLen).take 4) ((inBuf.drop (headerLen + 4)).take payloadLen) := by
  rcases inBuf with - | ⟨b0, - | ⟨b1, rest⟩⟩
  · cases h
  · cases h
  rw [wsDecodeFrame3] at h
  cases hc : checkHead b0 b1 with
  | none =>
      rw [hc] at h
      cases h
  | some op' =>
      cases hs : payloadSize b1 rest with
      | none =>
          rw [hc, hs] at h
          cases h
      | some size =>
          obtain ⟨headerLen, payloadLen⟩ := size
          rw [hc, hs] at h
          dsimp only at h
          split_ifs at h with hmax hlen
          obtain ⟨-, rfl, rfl, rfl⟩ := Decoded.ok.inj h
          refine ⟨b0, b1, rest, headerLen, payloadLen, rfl, hc, hs, Nat.not_lt.mp hmax, rfl, Nat.not_lt.mp hlen,
            ?_, rfl⟩
          rw [length_unmask, List.length_take, List.length_drop]
          omega

/-- The oldest decoder, on a buffer that holds the length. -/
theorem wsDecodeFrame_of_payloadSize {b0 b1 : UInt8} {rest : Bytes} {headerLen payloadLen : ℕ}
    (hs : payloadSize b1 rest = some (headerLen, payloadLen)) (maxOut : ℕ) :
    wsDecodeFrame (b0 :: b1 :: rest) maxOut =
      if b0 &&& 0x0F ≠ 0x8 ∧ (b1 >>> 7) &&& 1 ≠ 0 ∧ headerLen + 4 ≤ (b0 :: b1 :: rest).length ∧
          payloadLen ≤ maxOut ∧ (headerLen + 4 + payloadLen) % 2 ^ 64 ≤ (b0 :: b1 :: rest).length then
        ((payloadLen : ℤ), copyOut (b0 :: b1 :: rest) headerLen payloadLen)
      else (-1, []) := by
  have hheader := headerLen_of_payloadSize hs
  -- the three tests of the length say that the head and the mask are there
  have hhead (len : ℕ) : headerLen + 4 ≤ len ↔
      ¬len < 6 ∧ ¬(b1 &&& 0x7F = 126 ∧ len < 8) ∧ ¬(b1 &&& 0x7F = 127 ∧ len < 14) := by
    split_ifs at hheader with h126 h127
    · have h127 : b1 &&& 0x7F ≠ 127 := fun h127 => absurd (h126.symm.trans h127) (by decide)
      simp only [eq_true h126, eq_false h127, true_and, false_and, not_false_eq_true, and_true]
      omega
    · simp only [eq_false h126, eq_true h127, true_and, false_and, not_false_eq_true]
      omega
    · simp only [eq_false h126, eq_false h127, false_and, not_false_eq_true, and_true]
      omega
  rw [wsDecodeFrame, hs]
  dsimp only
  by_cases haccepted : b0 &&& 0x0F ≠ 0x8 ∧ (b1 >>> 7) &&& 1 ≠ 0 ∧ headerLen + 4 ≤ (b0 :: b1 :: rest).length ∧
      payloadLen ≤ maxOut ∧ (headerLen + 4 + payloadLen) % 2 ^ 64 ≤ (b0 :: b1 :: rest).length
  · obtain ⟨hop, hbit, hlen, hmax, htotal⟩ := id haccepted
    obtain ⟨h6, h8, h14⟩ := (hhead _).mp hlen
    rw [if_pos haccepted, if_neg h6, if_neg hop, if_neg hbit, if_neg h8, if_neg h14, if_neg (Nat.not_lt.mpr hmax),
      if_neg (Nat.not_lt.mpr htotal)]
  · rw [if_neg haccepted]
    split_ifs with h6 hop hbit h8 h14 hmax htotal
    all_goals first | rfl | skip
    exact (haccepted ⟨hop, hbit, (hhead _).mpr ⟨h6, h8, h14⟩, Nat.not_lt.mp hmax, Nat.not_lt.mp htotal⟩).elim

theorem wsDecodeFrame_of_payloadSize_none {b0 b1 : UInt8} {rest : Bytes} (hs : payloadSize b1 rest = none)
    (maxOut : ℕ) : wsDecodeFrame (b0 :: b1 :: rest) maxOut = (-1, []) := by
  rw [wsDecodeFrame, hs]
  dsimp only
  split_ifs <;> rfl

/-- The oldest decoder writes behind the buffer exactly when the payload fills it. -/
theorem length_wsDecodeFrame_le_iff (inBuf : Bytes) (maxOut : ℕ) :
    (wsDecodeFrame inBuf maxOut).2.length ≤ maxOut ↔ ¬FillsOutput inBuf maxOut := by
  rcases inBuf with - | ⟨b0, - | ⟨b1, rest⟩⟩
  · exact iff_of_true (Nat.zero_le _) fun ⟨_, _, _, _, h, _⟩ => nomatch h
  · exact iff_of_true (Nat.zero_le _) fun ⟨_, _, _, _, h, _⟩ => nomatch h
  cases hs : payloadSize b1 rest with
  | none =>
      rw [wsDecodeFrame_of_payloadSize_none hs]
      refine iff_of_true (Nat.zero_le _) ?_
      rintro ⟨_, _, _, _, h, -, -, hs', -⟩
      obtain ⟨rfl, rfl, rfl⟩ : b0 = _ ∧ b1 = _ ∧ rest = _ := by simpa using h
      rw [hs] at hs'
      cases hs'
  | some size =>
      obtain ⟨headerLen, payloadLen⟩ := size
      have hfills : FillsOutput (b0 :: b1 :: rest) maxOut ↔
          (b0 &&& 0x0F ≠ 0x8 ∧ (b1 >>> 7) &&& 1 ≠ 0 ∧ headerLen + 4 ≤ (b0 :: b1 :: rest).length ∧
            payloadLen ≤ maxOut ∧ (headerLen + 4 + payloadLen) % 2 ^ 64 ≤ (b0 :: b1 :: rest).length) ∧
            payloadLen = maxOut := by
        constructor
        · rintro ⟨_, _, _, headerLen', h, hop, hmask, hs', hhead, htotal⟩
          obtain ⟨rfl, rfl, rfl⟩ : b0 = _ ∧ b1 = _ ∧ rest = _ := by simpa using h
          obtain ⟨rfl, rfl⟩ : headerLen = headerLen' ∧ payloadLen = maxOut := by simpa [hs] using hs'
          exact ⟨⟨hop, hmask, hhead, le_rfl, htotal⟩, rfl⟩
        · rintro ⟨⟨hop, hmask, hhead, -, htotal⟩, rfl⟩
          exact ⟨b0, b1, rest, headerLen, rfl, hop, hmask, hs, hhead, htotal⟩
      rw [wsDecodeFrame_of_payloadSize hs, hfills]
      split_ifs with haccepted
      · rw [length_copyOut]
        have hle := haccepted.2.2.2.1
        constructor
        · rintro hfits ⟨-, rfl⟩
          omega
        · intro hne
          exact Nat.lt_of_le_of_ne hle fun heq => hne ⟨haccepted, heq⟩
      · simp only [haccepted, false_and, not_false_eq_true, iff_true]
        exact Nat.zero_le _

theorem length_wsDecodeFrame2_le (inBuf : Bytes) (maxOut : ℕ) :
    (wsDecodeFrame2 inBuf maxOut).outMsg.length ≤ maxOut := by
  rcases inBuf with - | ⟨b0, - | ⟨b1, rest⟩⟩
  · exact Nat.zero_le _
  · exact Nat.zero_le _
  rw [wsDecodeFrame2]
  cases payloadSize b1 rest with
  | none => split_ifs <;> exact Nat.zero_le _
  | some size =>
      dsimp only
      split_ifs with hbit hmax hout hlen
      · exact Nat.zero_le _
      · exact Nat.zero_le _
      · exact Nat.zero_le _
      · exact Nat.zero_le _
      all_goals
        rw [length_copyOut]
        omega

/-- **The decoders agree, and stay in bounds unless the payload fills the output** -/
theorem decodersAgree_iff (inBuf : Bytes) (maxOut : ℕ) : DecodersAgree inBuf maxOut ↔ ¬FillsOutput inBuf maxOut := by
  rw [DecodersAgree, length_wsDecodeFrame_le_iff]
  refine ⟨fun h => h.2.1, fun hfills => ⟨fun buf' payload n op hok htext hlt => ?_, hfills,
    length_wsDecodeFrame2_le inBuf maxOut⟩⟩
  obtain ⟨b0, b1, rest, headerLen, payloadLen, rfl, hc, hs, hmax, rfl, htotal, hlen, hpayload⟩ := ok_cases hok
  obtain ⟨hb0, hmask, -, -⟩ := checkHead_eq_some_iff.mp hc
  have hcopy := copyOut_eq htotal
  rw [← hpayload] at hcopy
  rw [hlen] at hlt ⊢
  have hop : b0 &&& 0x0F ≠ 0x8 := by
    rw [hb0]
    rcases htext with rfl | rfl <;> decide
  have hbit : (b1 >>> 7) &&& 1 ≠ 0 := fun h => hmask ((mask_bit_iff b1).mp h)
  have hheader := headerLen_of_payloadSize hs
  have hsmall : headerLen + 4 + payloadLen < 2 ^ 64 := by
    rw [maxPayloadSize] at hmax
    split_ifs at hheader <;> omega
  refine ⟨?_, ?_⟩
  · rw [wsDecodeFrame_of_payloadSize hs, if_pos, hcopy]
    refine ⟨hop, hbit, by omega, hlt.le, ?_⟩
    rw [Nat.mod_eq_of_lt hsmall]
    exact htotal
  · rw [wsDecodeFrame2, if_neg hbit, hs]
    dsimp only
    rw [if_neg (by omega), if_neg (by omega), if_neg (by omega), if_neg hop]
    exact ⟨rfl, rfl, hcopy⟩

/-- A text frame whose payload fills the output. -/
theorem decodersAgree_fails : ¬DecodersAgree [0x81, 0x82, 0, 0, 0, 0, 72, 105] 2 := by
  intro h
  exact absurd h.2.1 (by decide)

end Ws
