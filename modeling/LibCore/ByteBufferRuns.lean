import LibCore.ByteBuffer
import LibCore.WsFrame

/-!
# The Byte Buffer as a Queue

The reading functions of `bytebuffer.c`, and runs of calls. Growing first moves the unread bytes to the front,
also when it then fails, so what a buffer holds is stated about the unread bytes only.

An `int32_t` is its 32 bits; positions are added modulo 2⁶⁴.

## Main results

* `exec_queueStep`: every call does what it does to a queue of bytes.
* `run_conserves`: what was read and what is unread together are what was written, in order.
* `skip_consumes_iff`: `impl_skip` consumes bytes unless its length wraps the position; then it goes back.
-/

open CString

namespace ByteBuffer

/-! ### The functions -/

/-- The largest size of an object, `PTRDIFF_MAX`. -/
def ptrdiffMax : ℕ := 2 ^ 63 - 1

/-- `new_ByteBuffer`; `none` for `NULL`, when the memory is larger than any object. -/
def newByteBuffer (capacity : ℕ) : Option ByteBuffer :=
    if capacity > ptrdiffMax then none else some (new capacity)

/-- The bytes from the read position on. -/
def unread (b : ByteBuffer) : Bytes := b.data.drop b.readPos

/-- `htonl`, as the bytes in memory. -/
def htonl (v : BitVec 32) : Bytes := Ws.beBytes 4 v.toNat

/-- `ntohl` of bytes in memory. -/
def ntohl (bytes : Bytes) : BitVec 32 := BitVec.ofNat 32 (Ws.beNat bytes)

/-- `impl_writeInt32`: the buffer it leaves, and whether it returns 0. -/
def writeInt32 (b : ByteBuffer) (v : BitVec 32) : ByteBuffer × Bool :=
  let r := b.ensureCapacity 4
  if r.2 then ({ r.1 with data := r.1.data ++ htonl v }, true) else (r.1, false)

/-- `impl_readByte`; `none` for `false`. -/
def readByte (b : ByteBuffer) : ByteBuffer × Option UInt8 :=
  if b.readPos ≥ b.data.length then (b, none) else ({ b with readPos := b.readPos + 1 }, b.data[b.readPos]?)

/-- `impl_readInt32`; `none` for `false`. -/
def readInt32 (b : ByteBuffer) : ByteBuffer × Option (BitVec 32) :=
  if (b.readPos + 4) % 2 ^ 64 > b.data.length then (b, none)
  else ({ b with readPos := b.readPos + 4 }, some (ntohl ((b.data.drop b.readPos).take 4)))

/-- `impl_peekInt32`; `none` for `false`. -/
def peekInt32 (b : ByteBuffer) : Option (BitVec 32) :=
  if (b.readPos + 4) % 2 ^ 64 > b.data.length then none else some (ntohl ((b.data.drop b.readPos).take 4))

/-- `impl_read`: the buffer it leaves and the bytes it copies. -/
def read (b : ByteBuffer) (len : ℕ) : ByteBuffer × Bytes :=
  if len = 0 then (b, [])
  else
    let available := b.data.length - b.readPos
    let len := if len > available then available else len
    ({ b with readPos := b.readPos + len }, (b.data.drop b.readPos).take len)

/-- The loop of `impl_indexOf`, with `i - read_pos` as the index. -/
def indexOfLoop (target : UInt8) : Bytes → ℕ → Option ℕ
  | [], _ => none
  | c :: rest, i => if c = target then some i else indexOfLoop target rest (i + 1)

/-- `impl_indexOf`; `none` for `-1`. -/
def indexOf (b : ByteBuffer) (target : UInt8) : Option ℕ := indexOfLoop target (b.data.drop b.readPos) 0

/-- `impl_readSlice`: the buffer it leaves and the new one. -/
def readSlice (b : ByteBuffer) (len : ℕ) : ByteBuffer × ByteBuffer :=
  let available := b.data.length - b.readPos
  let len := if len > available then available else len
  let out := ((new len).write ((b.data.drop b.readPos).take len)).1
  ({ b with readPos := b.readPos + len }, out)

/-! ### Calls -/

/-- A call. -/
inductive Op where
  | write (bytes : Bytes)
  | writeByte (c : UInt8)
  | writeInt32 (v : BitVec 32)
  | read (len : ℕ)
  | readByte
  | readInt32
  | peekInt32
  | indexOf (target : UInt8)
  | compact
  | readSlice (len : ℕ)

/-- The result of a call. -/
inductive Result where
  | status (ok : Bool)
  | bytes (got : Bytes)
  | byte (got : Option UInt8)
  | int32 (got : Option (BitVec 32))
  | index (i : Option ℕ)
  | slice (out : ByteBuffer)
  | unit

/-- A call on a buffer. -/
def exec (b : ByteBuffer) : Op → ByteBuffer × Result
  | .write bytes => (b.write bytes).map id .status
  | .writeByte c => (b.writeByte c).map id .status
  | .writeInt32 v => (b.writeInt32 v).map id .status
  | .read len => (b.read len).map id .bytes
  | .readByte => b.readByte.map id .byte
  | .readInt32 => b.readInt32.map id .int32
  | .peekInt32 => (b, .int32 b.peekInt32)
  | .indexOf target => (b, .index (b.indexOf target))
  | .compact => (b.compact, .unit)
  | .readSlice len => (b.readSlice len).map id .slice

/-- Some calls, with their results. -/
def run : ByteBuffer → List Op → List (Op × Result) × ByteBuffer
  | b, [] => ([], b)
  | b, op :: ops =>
      let (b, result) := b.exec op
      let (results, b) := run b ops
      ((op, result) :: results, b)

/-- The call reports a failure. -/
def Result.Failed : Result → Prop
  | .status false | .byte none | .int32 none => True
  | _ => False

/-- The bytes of a successful write. -/
def written : Op × Result → Bytes
  | (.write bytes, .status true) => bytes
  | (.writeByte c, .status true) => [c]
  | (.writeInt32 v, .status true) => htonl v
  | _ => []

/-- The bytes that a call reads. -/
def consumed : Op × Result → Bytes
  | (.read _, .bytes got) => got
  | (.readByte, .byte (some c)) => [c]
  | (.readInt32, .int32 (some v)) => htonl v
  | (.readSlice _, .slice out) => out.unread
  | _ => []

/-- What a call does to a queue of bytes. -/
def QueueStep (q : Bytes) : Op → Result → Bytes → Prop
  | .write bytes, .status ok, q' => q' = if ok then q ++ bytes else q
  | .writeByte c, .status ok, q' => q' = if ok then q ++ [c] else q
  | .writeInt32 v, .status ok, q' => q' = if ok then q ++ htonl v else q
  | .read len, .bytes got, q' => got = q.take len ∧ q' = q.drop len
  | .readByte, .byte got, q' => got = q.head? ∧ q' = q.tail
  | .readInt32, .int32 got, q' =>
      if 4 ≤ q.length then got = some (ntohl (q.take 4)) ∧ q' = q.drop 4 else got = none ∧ q' = q
  | .peekInt32, .int32 got, q' => got = (if 4 ≤ q.length then some (ntohl (q.take 4)) else none) ∧ q' = q
  | .indexOf target, .index i, q' => i = q.idxOf? target ∧ q' = q
  | .compact, .unit, q' => q' = q
  | .readSlice len, .slice out, q' => out.unread = q.take len ∧ q' = q.drop len
  | _, _, _ => False

/-! ### Numbers -/

theorem length_htonl (v : BitVec 32) : (htonl v).length = 4 := Ws.length_beBytes 4 _

theorem ntohl_htonl (v : BitVec 32) : ntohl (htonl v) = v := by
  rw [ntohl, htonl, Ws.beNat_beBytes 4 _ v.isLt, BitVec.ofNat_toNat, BitVec.setWidth_eq]

theorem htonl_ntohl {bytes : Bytes} (hlen : bytes.length = 4) : htonl (ntohl bytes) = bytes := by
  have hlt := Ws.beNat_lt bytes
  rw [hlen] at hlt
  have hbytes := Ws.beBytes_beNat bytes
  rw [hlen] at hbytes
  have hmod : Ws.beNat bytes % 2 ^ 32 = Ws.beNat bytes := Nat.mod_eq_of_lt hlt
  rw [htonl, ntohl, BitVec.toNat_ofNat, hmod, hbytes]

/-! ### The invariant -/

/-- The positions are in order, and the memory is an object. -/
structure Sound (b : ByteBuffer) : Prop where
  read_le : b.readPos ≤ b.data.length
  write_le : b.data.length ≤ b.capacity
  capacity_le : b.capacity ≤ ptrdiffMax

theorem sound_new {capacity : ℕ} (h : capacity ≤ ptrdiffMax) : Sound (new capacity) where
  read_le := le_rfl
  write_le := Nat.zero_le _
  capacity_le := by
    rw [new]
    split_ifs
    · exact (by decide : 1024 ≤ ptrdiffMax)
    · exact h

theorem sound_of_newByteBuffer {capacity : ℕ} {b : ByteBuffer} (hb : newByteBuffer capacity = some b) :
    Sound b ∧ b.unread = [] := by
  rw [newByteBuffer] at hb
  split_ifs at hb with hmax
  obtain rfl := Option.some.inj hb
  exact ⟨sound_new (Nat.not_lt.mp hmax), rfl⟩

theorem growLoop_bounds {needed fuel newCap cap : ℕ} (h : growLoop needed fuel newCap = some cap) :
    needed ≤ cap ∧ (cap = newCap ∨ cap ≤ maxCapacity) := by
  induction fuel generalizing newCap with
  | zero => cases h
  | succ fuel ih =>
      rw [growLoop] at h
      split_ifs at h with hlt hhalf
      · obtain ⟨hle, hcap⟩ := ih h
        refine ⟨hle, .inr ?_⟩
        rw [maxCapacity] at hhalf hcap ⊢
        omega
      · obtain rfl := Option.some.inj h
        exact ⟨Nat.not_lt.mp hlt, .inl rfl⟩

theorem unread_compact (b : ByteBuffer) : b.compact.unread = b.unread := by
  rw [compact]
  split_ifs with hzero
  · rfl
  · rfl

theorem Sound.compact {b : ByteBuffer} (h : Sound b) : Sound b.compact := by
  rw [ByteBuffer.compact]
  split_ifs
  · exact h
  · refine ⟨Nat.zero_le _, ?_, h.capacity_le⟩
    rw [List.length_drop]
    exact (Nat.sub_le _ _).trans h.write_le

/-- Growing keeps the unread bytes, also when it fails. -/
theorem Sound.ensureCapacity {b : ByteBuffer} (h : Sound b) (len : ℕ) :
    Sound (b.ensureCapacity len).1 ∧ (b.ensureCapacity len).1.unread = b.unread ∧
      ((b.ensureCapacity len).2 = true →
        (b.ensureCapacity len).1.data.length + len ≤ (b.ensureCapacity len).1.capacity) := by
  rw [ByteBuffer.ensureCapacity]
  by_cases hover : len > 2 ^ 64 - 1 - b.data.length
  · rw [if_pos hover]
    exact ⟨h, rfl, fun hok => absurd hok Bool.false_ne_true⟩
  rw [if_neg hover]
  -- the buffer is compacted where it would have to grow
  obtain ⟨hb₁, hunread₁⟩ : Sound (if b.data.length + len > b.capacity then b.compact else b) ∧
      (if b.data.length + len > b.capacity then b.compact else b).unread = b.unread := by
    split_ifs
    · exact ⟨h.compact, unread_compact b⟩
    · exact ⟨h, rfl⟩
  generalize (if b.data.length + len > b.capacity then b.compact else b) = b₁ at hb₁ hunread₁
  dsimp only
  by_cases hfits : b₁.data.length + len ≤ b₁.capacity
  · rw [if_pos hfits]
    exact ⟨hb₁, hunread₁, fun _ => hfits⟩
  rw [if_neg hfits]
  cases hgrow : growLoop (b₁.data.length + len) 25 (if b₁.capacity = 0 then 1024 else b₁.capacity) with
  | none => exact ⟨hb₁, hunread₁, fun hok => absurd hok Bool.false_ne_true⟩
  | some newCap =>
      obtain ⟨hle, hcap⟩ := growLoop_bounds hgrow
      refine ⟨⟨hb₁.read_le, (Nat.le_add_right _ _).trans hle, ?_⟩, hunread₁, fun _ => hle⟩
      have hcapacity := hb₁.capacity_le
      rw [maxCapacity] at hcap
      rw [ptrdiffMax] at hcapacity ⊢
      split_ifs at hcap <;> dsimp only <;> omega

/-- Bytes behind a buffer with room for them. -/
theorem Sound.append {b : ByteBuffer} (h : Sound b) {bytes : Bytes}
    (hfits : b.data.length + bytes.length ≤ b.capacity) :
    Sound { b with data := b.data ++ bytes } ∧
      unread { b with data := b.data ++ bytes } = b.unread ++ bytes := by
  refine ⟨⟨?_, ?_, h.capacity_le⟩, List.drop_append_of_le_length h.read_le⟩
  · rw [List.length_append]
    exact h.read_le.trans (Nat.le_add_right _ _)
  · rw [List.length_append]
    exact hfits

/-- The read position moves on. -/
theorem Sound.advance {b : ByteBuffer} (h : Sound b) {len : ℕ} (hlen : len ≤ b.unread.length) :
    Sound { b with readPos := b.readPos + len } ∧
      unread { b with readPos := b.readPos + len } = b.unread.drop len := by
  rw [unread, List.length_drop] at hlen
  have hread := h.read_le
  refine ⟨⟨?_, h.write_le, h.capacity_le⟩, ?_⟩
  · dsimp only
    omega
  · rw [unread, unread, List.drop_drop]

/-- A write, which may fail. -/
theorem Sound.put {b : ByteBuffer} (h : Sound b) (bytes : Bytes) :
    let r := b.ensureCapacity bytes.length
    let w : ByteBuffer × Bool := if r.2 then ({ r.1 with data := r.1.data ++ bytes }, true) else
      (r.1, false)
    Sound w.1 ∧ w.1.unread = if w.2 then b.unread ++ bytes else b.unread := by
  obtain ⟨hsound, hunread, hfits⟩ := h.ensureCapacity bytes.length
  dsimp only
  cases hok : (b.ensureCapacity bytes.length).2 with
  | false => exact ⟨hsound, hunread⟩
  | true =>
      obtain ⟨happend, happended⟩ := hsound.append (hfits hok)
      exact ⟨happend, happended.trans (congrArg (· ++ bytes) hunread)⟩

/-! ### Every call is one of the queue -/

theorem indexOfLoop_eq (target : UInt8) (bytes : Bytes) (i : ℕ) :
    indexOfLoop target bytes i = (bytes.idxOf? target).map (· + i) := by
  induction bytes generalizing i with
  | nil => rfl
  | cons c rest ih =>
      rw [indexOfLoop, List.idxOf?_cons]
      by_cases hc : c = target
      · rw [if_pos hc, if_pos (by simpa using hc)]
        simp
      · rw [if_neg hc, if_neg (by simpa using hc), ih, Option.map_map]
        congr 1
        funext j
        simp only [Function.comp]
        omega

/-- The test of the functions that read four bytes. -/
theorem Sound.four_iff {b : ByteBuffer} (h : Sound b) :
    (b.readPos + 4) % 2 ^ 64 > b.data.length ↔ ¬4 ≤ b.unread.length := by
  have hread := h.read_le
  have hwrite := h.write_le
  have hcapacity := h.capacity_le
  rw [ptrdiffMax] at hcapacity
  rw [unread, List.length_drop, Nat.mod_eq_of_lt (by omega)]
  omega

/-- The length that is read. -/
theorem min_length (b : ByteBuffer) (len : ℕ) :
    (if len > b.data.length - b.readPos then b.data.length - b.readPos else len) =
      min len b.unread.length := by
  rw [unread, List.length_drop]
  split_ifs <;> omega

theorem unread_new_write {bytes : Bytes} (hlen : bytes.length ≤ ptrdiffMax) :
    ((new bytes.length).write bytes).1.unread = bytes := by
  rw [ptrdiffMax] at hlen
  have hfits : (new bytes.length).data.length + bytes.length ≤ (new bytes.length).capacity := by
    rw [new]
    split_ifs with hzero
    · simp [hzero]
    · simp
  rw [write_of_fits hfits]
  · rfl
  · have hnil : (new bytes.length).data.length = 0 := rfl
    omega

/-- **A call does what it does to a queue of bytes** -/
theorem Sound.exec_queueStep {b : ByteBuffer} (h : Sound b) (op : Op) :
    Sound (b.exec op).1 ∧ QueueStep b.unread op (b.exec op).2 (b.exec op).1.unread := by
  cases op with
  | write bytes =>
      by_cases hnil : bytes = []
      · have hwrite : b.exec (.write bytes) = (b, .status true) := by
          rw [exec, write, if_pos hnil]
          rfl
        rw [hwrite, hnil]
        exact ⟨h, (List.append_nil _).symm⟩
      · have hput := h.put bytes
        rw [exec, write, if_neg hnil]
        exact hput
  | writeByte c => exact h.put [c]
  | writeInt32 v =>
      have hput := h.put (htonl v)
      rw [length_htonl] at hput
      exact hput
  | read len =>
      rw [exec, read]
      by_cases hzero : len = 0
      · rw [if_pos hzero, hzero]
        exact ⟨h, rfl, rfl⟩
      · obtain ⟨hsound, hunread⟩ := h.advance (Nat.min_le_right len _)
        rw [if_neg hzero]
        dsimp only
        rw [min_length]
        refine ⟨hsound, ?_, hunread.trans ?_⟩
        · exact List.take_eq_take_min.symm
        · exact List.drop_eq_drop_min.symm
  | readByte =>
      rw [exec, readByte]
      by_cases hempty : b.readPos ≥ b.data.length
      · have hnil : b.unread = [] := List.drop_eq_nil_of_le hempty
        rw [if_pos hempty]
        refine ⟨h, ?_⟩
        rw [hnil]
        exact ⟨rfl, hnil⟩
      · have hlen : 1 ≤ b.unread.length := by
          rw [unread, List.length_drop]
          omega
        obtain ⟨hsound, hunread⟩ := h.advance hlen
        rw [if_neg hempty]
        refine ⟨hsound, ?_, hunread.trans List.drop_one⟩
        exact List.head?_drop.symm
  | readInt32 =>
      rw [exec, readInt32]
      by_cases hfour : 4 ≤ b.unread.length
      · obtain ⟨hsound, hunread⟩ := h.advance hfour
        rw [if_neg (mt h.four_iff.mp (not_not.mpr hfour))]
        refine ⟨hsound, ?_⟩
        change if 4 ≤ b.unread.length then _ else _
        rw [if_pos hfour]
        exact ⟨rfl, hunread⟩
      · rw [if_pos (h.four_iff.mpr hfour)]
        refine ⟨h, ?_⟩
        change if 4 ≤ b.unread.length then _ else _
        rw [if_neg hfour]
        exact ⟨rfl, rfl⟩
  | peekInt32 =>
      refine ⟨h, ?_, rfl⟩
      rw [peekInt32]
      by_cases hfour : 4 ≤ b.unread.length
      · rw [if_neg (mt h.four_iff.mp (not_not.mpr hfour)), if_pos hfour]
        rfl
      · rw [if_pos (h.four_iff.mpr hfour), if_neg hfour]
  | indexOf target =>
      refine ⟨h, ?_, rfl⟩
      rw [indexOf, indexOfLoop_eq]
      exact congrFun Option.map_id _
  | compact => exact ⟨h.compact, unread_compact b⟩
  | readSlice len =>
      obtain ⟨hsound, hunread⟩ := h.advance (Nat.min_le_right len _)
      rw [exec, readSlice]
      rw [min_length]
      refine ⟨hsound, ?_, hunread.trans List.drop_eq_drop_min.symm⟩
      have hlen : (b.unread.take (min len b.unread.length)).length = min len b.unread.length := by
        rw [List.length_take]
        omega
      have hmax : (b.unread.take (min len b.unread.length)).length ≤ ptrdiffMax := by
        have hdrop : b.unread.length = b.data.length - b.readPos := List.length_drop
        have hwrite := h.write_le
        have hcapacity := h.capacity_le
        omega
      have hslice := unread_new_write hmax
      rw [hlen] at hslice
      exact hslice.trans List.take_eq_take_min.symm

/-- Every call of the queue keeps what was written and not read, in order. -/
theorem QueueStep.conserves {q q' : Bytes} {op : Op} {result : Result} (h : QueueStep q op result q') :
    q ++ written (op, result) = consumed (op, result) ++ q' := by
  cases op <;> cases result <;> try exact h.elim
  case write.status bytes ok | writeByte.status c ok | writeInt32.status v ok =>
    rw [show q' = _ from h]
    cases ok
    · exact List.append_nil q
    · rfl
  case read.bytes len got =>
    obtain ⟨rfl, rfl⟩ := h
    exact (List.append_nil q).trans (List.take_append_drop len q).symm
  case readByte.byte got =>
    obtain ⟨rfl, rfl⟩ := h
    cases q <;> exact List.append_nil _
  case readInt32.int32 got =>
    rw [QueueStep] at h
    split_ifs at h with hfour
    · obtain ⟨rfl, rfl⟩ := h
      have htake : htonl (ntohl (q.take 4)) = q.take 4 := htonl_ntohl (List.length_take_of_le hfour)
      change q ++ [] = htonl _ ++ _
      rw [List.append_nil, htake, List.take_append_drop]
    · obtain ⟨rfl, rfl⟩ := h
      exact List.append_nil _
  case peekInt32.int32 got | indexOf.index i =>
    obtain ⟨-, rfl⟩ := h
    exact List.append_nil _
  case compact.unit =>
    rw [show q' = q from h]
    exact List.append_nil q
  case readSlice.slice len out =>
    obtain ⟨hout, rfl⟩ := h
    change q ++ [] = out.unread ++ _
    rw [hout, List.append_nil, List.take_append_drop]

/-- A number at the front is read as it was written. -/
theorem QueueStep.int32_of_htonl {q q' rest : Bytes} {op : Op} {result : Result} {v : BitVec 32}
    (h : QueueStep q op result q') (hq : q = htonl v ++ rest) (hop : op = .readInt32 ∨ op = .peekInt32) :
    result = .int32 (some v) := by
  have hfour : 4 ≤ q.length := by
    rw [hq, List.length_append, length_htonl]
    exact Nat.le_add_right _ _
  have htake : q.take 4 = htonl v := by
    rw [hq, List.take_append_of_le_length (length_htonl v).ge, List.take_of_length_le (length_htonl v).le]
  rcases hop with rfl | rfl
  · cases result <;> try exact h.elim
    case inl.int32 got =>
      rw [QueueStep, if_pos hfour, htake, ntohl_htonl] at h
      rw [h.1]
  · cases result <;> try exact h.elim
    case inr.int32 got =>
      rw [QueueStep, if_pos hfour, htake, ntohl_htonl] at h
      rw [h.1]

theorem QueueStep.eq_of_failed {q q' : Bytes} {op : Op} {result : Result} (h : QueueStep q op result q')
    (hfailed : result.Failed) : q' = q := by
  cases op <;> cases result <;> try exact h.elim
  case write.status bytes ok | writeByte.status c ok | writeInt32.status v ok =>
    cases ok
    · exact h
    · exact hfailed.elim
  case readByte.byte got =>
    obtain ⟨rfl, rfl⟩ := h
    cases q
    · rfl
    · exact hfailed.elim
  case readInt32.int32 got =>
    rw [QueueStep] at h
    split_ifs at h with hfour
    · rw [h.1] at hfailed
      exact hfailed.elim
    · exact h.2
  case peekInt32.int32 got => exact h.2
  all_goals exact hfailed.elim

/-! ### Runs -/

theorem Sound.run {b : ByteBuffer} (h : Sound b) (ops : List Op) :
    Sound (ByteBuffer.run b ops).2 ∧
      b.unread ++ ((ByteBuffer.run b ops).1.map written).flatten =
        ((ByteBuffer.run b ops).1.map consumed).flatten ++ (ByteBuffer.run b ops).2.unread := by
  induction ops generalizing b with
  | nil => exact ⟨h, List.append_nil _⟩
  | cons op ops ih =>
      obtain ⟨hsound, hstep⟩ := h.exec_queueStep op
      obtain ⟨hrun, hconserves⟩ := ih hsound
      refine ⟨hrun, ?_⟩
      rw [ByteBuffer.run]
      simp only [List.map_cons, List.flatten_cons]
      rw [← List.append_assoc, hstep.conserves, List.append_assoc, hconserves, List.append_assoc]

/-- **The buffer is a queue of bytes** -/
theorem run_conserves {capacity : ℕ} {b : ByteBuffer} (hb : newByteBuffer capacity = some b)
    (ops : List Op) :
    let (trace, b') := b.run ops
    (b'.readPos ≤ b'.data.length ∧ b'.data.length ≤ b'.capacity) ∧
      (trace.map consumed).flatten ++ b'.unread = (trace.map written).flatten ∧
      (∀ op, QueueStep b'.unread op (b'.exec op).2 (b'.exec op).1.unread) ∧
      (∀ op, (b'.exec op).2.Failed → (b'.exec op).1.unread = b'.unread) ∧
      ∀ v, (b'.exec (.writeInt32 v)).2 = .status true → ∀ ops₂,
        let (trace₂, b₂) := (b'.exec (.writeInt32 v)).1.run ops₂
        (trace₂.map consumed).flatten.length = b'.unread.length →
          (b₂.exec .readInt32).2 = .int32 (some v) ∧ (b₂.exec .peekInt32).2 = .int32 (some v) := by
  have hnew := sound_of_newByteBuffer hb
  obtain ⟨hrun, hconserves⟩ := hnew.1.run ops
  rw [hnew.2, List.nil_append] at hconserves
  refine ⟨⟨hrun.read_le, hrun.write_le⟩, hconserves.symm, fun op => (hrun.exec_queueStep op).2,
    fun op => (hrun.exec_queueStep op).2.eq_of_failed, fun v hok ops₂ hlen => ?_⟩
  obtain ⟨hsound, hstep⟩ := hrun.exec_queueStep (.writeInt32 v)
  obtain ⟨hrun₂, hconserves₂⟩ := hsound.run ops₂
  rw [hok] at hstep
  rw [show _ = (b.run ops).2.unread ++ htonl v from hstep, List.append_assoc] at hconserves₂
  -- the number is at the front again
  obtain ⟨-, hfront⟩ := List.append_inj hconserves₂ hlen.symm
  refine ⟨(hrun₂.exec_queueStep .readInt32).2.int32_of_htonl hfront.symm (.inl rfl), ?_⟩
  exact (hrun₂.exec_queueStep .peekInt32).2.int32_of_htonl hfront.symm (.inr rfl)

theorem run_conserves_sample :
    let (trace, b) := (new 5).run [.write [1, 2, 3, 4, 5], .read 3, .writeInt32 (-2)]
    (trace.map consumed).flatten ++ b.unread = [1, 2, 3, 4, 5] ++ htonl (-2) :=
  (@run_conserves 5 _ rfl [.write [1, 2, 3, 4, 5], .read 3, .writeInt32 (-2)]).2.1

/-! ### Skipping -/

/-- `impl_skip`. -/
def skip (b : ByteBuffer) (len : UInt64) : ByteBuffer :=
  { b with
    readPos :=
      if (b.readPos + len.toNat) % 2 ^ 64 > b.data.length then b.data.length else
        (b.readPos + len.toNat) % 2 ^ 64 }

/-- A call of a history. -/
inductive Call where
  | op (op : Op)
  | skip (len : UInt64)

/-- The buffer after a call. -/
def call (b : ByteBuffer) : Call → ByteBuffer
  | .op op => (b.exec op).1
  | .skip len => b.skip len

/-- The buffer after a history. -/
def after (b : ByteBuffer) (calls : List Call) : ByteBuffer := calls.foldl call b

/-- A skip makes bytes consumed as a read of the length does. -/
def SkipConsumes (b : ByteBuffer) (len : UInt64) : Prop :=
  b.readPos ≤ (b.skip len).readPos ∧
    (b.skip len).unread.length = b.unread.length - min len.toNat b.unread.length

/-- The length does not carry the position past the largest `size_t`. -/
def SkipFits (b : ByteBuffer) (len : UInt64) : Prop := b.readPos + len.toNat < 2 ^ 64

/-- Every skip of the history fits. -/
def SkipsFit : ByteBuffer → List Call → Prop
  | _, [] => True
  | b, .op op :: calls => SkipsFit (b.exec op).1 calls
  | b, .skip len :: calls => b.SkipFits len ∧ SkipsFit (b.skip len) calls

/-- The bytes that a history writes, and those that it reads or skips. -/
def ledger : ByteBuffer → List Call → Bytes × Bytes
  | _, [] => ([], [])
  | b, .op op :: calls =>
      (written (op, (b.exec op).2) ++ (ledger (b.exec op).1 calls).1,
        consumed (op, (b.exec op).2) ++ (ledger (b.exec op).1 calls).2)
  | b, .skip len :: calls =>
      ((ledger (b.skip len) calls).1, b.unread.take len.toNat ++ (ledger (b.skip len) calls).2)

theorem Sound.skip {b : ByteBuffer} (h : Sound b) (len : UInt64) : Sound (b.skip len) := by
  refine ⟨?_, h.write_le, h.capacity_le⟩
  rw [ByteBuffer.skip]
  dsimp only
  split_ifs with hpast
  · exact le_rfl
  · exact Nat.not_lt.mp hpast

theorem Sound.after {b : ByteBuffer} (h : Sound b) (calls : List Call) : Sound (b.after calls) := by
  induction calls generalizing b with
  | nil => exact h
  | cons c calls ih =>
      cases c with
      | op op => exact ih (h.exec_queueStep op).1
      | skip len => exact ih (h.skip len)

/-- A skip that fits drops the bytes from the queue. -/
theorem Sound.unread_skip {b : ByteBuffer} (h : Sound b) {len : UInt64} (hfits : b.SkipFits len) :
    b.readPos ≤ (b.skip len).readPos ∧ (b.skip len).unread = b.unread.drop len.toNat := by
  have hread := h.read_le
  have hmod : (b.readPos + len.toNat) % 2 ^ 64 = b.readPos + len.toNat := Nat.mod_eq_of_lt hfits
  rw [ByteBuffer.skip, hmod]
  split_ifs with hpast
  · refine ⟨hread, ?_⟩
    rw [unread, unread, List.drop_length, List.drop_drop, List.drop_eq_nil_of_le hpast.le]
  · refine ⟨Nat.le_add_right _ _, ?_⟩
    rw [unread, unread, List.drop_drop]

/-- A skip that does not fit leads to a position before the one it starts at. -/
theorem Sound.readPos_skip_lt {b : ByteBuffer} (h : Sound b) {len : UInt64} (hfits : ¬b.SkipFits len) :
    (b.skip len).readPos < b.readPos := by
  have hread := h.read_le
  have hwrite := h.write_le
  have hcapacity := h.capacity_le
  have hlen : len.toNat < 2 ^ 64 := len.toNat_lt
  rw [SkipFits, Nat.not_lt] at hfits
  rw [ptrdiffMax] at hcapacity
  have hmod : (b.readPos + len.toNat) % 2 ^ 64 = b.readPos + len.toNat - 2 ^ 64 := by omega
  rw [ByteBuffer.skip, hmod]
  dsimp only
  rw [if_neg (by omega)]
  omega

theorem Sound.skipConsumes_iff {b : ByteBuffer} (h : Sound b) (len : UInt64) :
    b.SkipConsumes len ↔ b.SkipFits len := by
  constructor
  · intro hconsumes
    by_contra hfits
    exact absurd hconsumes.1 (h.readPos_skip_lt hfits).not_ge
  · intro hfits
    obtain ⟨hle, hunread⟩ := h.unread_skip hfits
    refine ⟨hle, ?_⟩
    rw [hunread, List.length_drop]
    omega

/-- What is written goes to the end of the queue, what is read or skipped leaves it at the front. -/
theorem Sound.ledger_conserves {b : ByteBuffer} (h : Sound b) {calls : List Call}
    (hfits : SkipsFit b calls) :
    b.unread ++ (ledger b calls).1 = (ledger b calls).2 ++ (b.after calls).unread := by
  induction calls generalizing b with
  | nil => exact List.append_nil _
  | cons c calls ih =>
      cases c with
      | op op =>
          obtain ⟨hsound, hstep⟩ := h.exec_queueStep op
          have hrest := ih hsound hfits
          rw [ledger, ← List.append_assoc, hstep.conserves, List.append_assoc, hrest, List.append_assoc]
          rfl
      | skip len =>
          obtain ⟨hskip, hrest⟩ := hfits
          have hcut := List.take_append_drop len.toNat b.unread
          rw [← (h.unread_skip hskip).2] at hcut
          have hafter : b.after (.skip len :: calls) = (b.skip len).after calls := rfl
          rw [ledger, hafter, List.append_assoc, ← ih (h.skip len) hrest, ← List.append_assoc, hcut]

/-- **Skipped bytes stay skipped** exactly if the length does not wrap the position -/
theorem skip_consumes_iff {capacity : ℕ} {b : ByteBuffer} (hb : newByteBuffer capacity = some b)
    (calls : List Call) :
    (∀ len, (b.after calls).SkipConsumes len ↔ (b.after calls).SkipFits len) ∧
      (SkipsFit b calls → (ledger b calls).2 ++ (b.after calls).unread = (ledger b calls).1) := by
  have hnew := sound_of_newByteBuffer hb
  refine ⟨(hnew.1.after calls).skipConsumes_iff, fun hfits => ?_⟩
  rw [← hnew.1.ledger_conserves hfits, hnew.2, List.nil_append]

theorem skip_consumes_sample :
    ((new 3).after [.op (.write [1, 2, 3]), .op (.read 1)]).SkipConsumes 2 :=
  ((@skip_consumes_iff 3 _ rfl [.op (.write [1, 2, 3]), .op (.read 1)]).1 2).mpr
    (by unfold SkipFits; decide)

/-- A byte that was read is read again after a skip by the largest length. -/
theorem skip_rewinds :
    newByteBuffer 3 = some (new 3) ∧
      ¬((new 3).after [.op (.write [1, 2, 3]), .op (.read 1)]).SkipConsumes (-1) ∧
      (((new 3).after [.op (.write [1, 2, 3]), .op (.read 1), .skip (-1)]).exec .readByte).2 =
        .byte (some 1) := by
  have hpos : (((new 3).after [.op (.write [1, 2, 3]), .op (.read 1)]).skip (-1)).readPos = 0 := by decide
  refine ⟨rfl, fun h => absurd h.1 (by rw [hpos]; decide), ?_⟩
  have hstate : (new 3).after [.op (.write [1, 2, 3]), .op (.read 1), .skip (-1)] = ⟨[1, 2, 3], 0, 3⟩ :=
    congrArg (fun pos => (⟨[1, 2, 3], pos, 3⟩ : ByteBuffer)) hpos
  rw [hstate]
  rfl

end ByteBuffer
