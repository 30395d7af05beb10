import LibCore.WsFrame

/-!
# The Output Queue of a Connection

The part of an `HttpConnection` that the lifecycle of connections and their output are about:
links, flags and `out_buf`. `append_out_buf` puts bytes behind the queue and grows its buffer by
doubling; the loop of `HttpConnection_flush` hands them to the socket. What the kernel answers is a
list of results that is used up call by call, and a call behind its end would block.

`interest` is what the event backend has registered for the socket. `appended` and `wire` are a
history: all bytes that were ever queued, and all that the socket has taken; `discarded` says that
the queue was dropped.

## Main results

* `sendLoop_wire`: what the loop sends and what it leaves are the queue.
* `le_growCap`: the grown buffer holds what is appended.
-/

open CString

namespace Server

/-- A connection, by its address. -/
abbrev ConnId := ℕ

/-- `mode`. -/
inductive ConnMode
  | http
  | ws
deriving DecidableEq

/-- `EVENT_READ` and `EVENT_WRITE` of a registration. -/
structure Interest where
  read : Bool
  write : Bool
deriving DecidableEq

/-- `PlayerSession`, as far as a broadcast reads it. -/
structure Session where
  room : ℕ
  isJoined : Bool
deriving DecidableEq

/-- `HttpConnection`; `server` says that it is not `NULL`. -/
structure Conn where
  next : Option ConnId
  prev : Option ConnId
  server : Bool
  mode : ConnMode
  isClosing : Bool
  backendRemovePending : Bool
  shutdownDone : Bool
  keepAlive : Bool
  wsCloseNotified : Bool
  outBuf : Bytes
  outCap : ℕ
  isWriteRegistered : Bool
  closeWriteOnlyRegistered : Bool
  sockOpen : Bool
  wsUserData : Option Session
  interest : Interest
  appended : Bytes
  wire : Bytes
  discarded : Bool

/-- `new_HttpConnection`, with its socket registered for reading. -/
def Conn.new : Conn where
  next := none
  prev := none
  server := true
  mode := .http
  isClosing := false
  backendRemovePending := false
  shutdownDone := false
  keepAlive := true
  wsCloseNotified := false
  outBuf := []
  outCap := 0
  isWriteRegistered := false
  closeWriteOnlyRegistered := false
  sockOpen := true
  wsUserData := none
  interest := ⟨true, false⟩
  appended := []
  wire := []
  discarded := false

/-! ### Appending -/

/-- `SIZE_MAX`. -/
def sizeMax : ℕ := 2 ^ 64 - 1

/-- The loop that doubles the capacity, for at most `fuel` rounds. -/
def doubleCap (required : ℕ) : ℕ → ℕ → ℕ
  | 0, newCap => newCap
  | fuel + 1, newCap =>
      if newCap < required then
        if newCap > sizeMax / 2 then required else doubleCap required fuel (newCap * 2)
      else newCap

/-- The capacity `append_out_buf` grows to. -/
def growCap (cap required : ℕ) : ℕ := doubleCap required 65 (if cap = 0 then 4096 else cap)

/-- Whether `append_out_buf` has to call `realloc`. -/
def Conn.grows (conn : Conn) (data : Bytes) : Bool :=
  decide (data ≠ [] ∧ data.length ≤ sizeMax - conn.outBuf.length ∧
    conn.outBuf.length + data.length > conn.outCap)

/-- `append_out_buf`: `none` for `-1`. -/
def Conn.appendOutBuf (conn : Conn) (reallocOk : Bool) (data : Bytes) : Option Conn :=
  if data = [] then some conn
  else if data.length > sizeMax - conn.outBuf.length then none
  else
    let required := conn.outBuf.length + data.length
    let conn' := { conn with outBuf := conn.outBuf ++ data, appended := conn.appended ++ data }
    if required > conn.outCap then
      if reallocOk then some { conn' with outCap := growCap conn.outCap required } else none
    else some conn'

/-- The doubling reaches what is required, unless it runs out of rounds. -/
theorem le_doubleCap {required : ℕ} (fuel : ℕ) {cap : ℕ}
    (h : required ≤ cap * 2 ^ fuel) (hcap : 0 < cap) : required ≤ doubleCap required fuel cap := by
  induction fuel generalizing cap with
  | zero => simpa [doubleCap] using h
  | succ fuel ih =>
      rw [doubleCap]
      split_ifs with hlt hhalf
      · exact le_rfl
      · refine ih ?_ (by omega)
        rw [pow_succ] at h
        calc required ≤ cap * (2 ^ fuel * 2) := h
          _ = cap * 2 * 2 ^ fuel := by ring
      · omega

/-- **The grown buffer holds the queue.** -/
theorem le_growCap {required : ℕ} (h : required ≤ sizeMax) (cap : ℕ) :
    required ≤ growCap cap required := by
  rw [growCap]
  have hpos : 0 < if cap = 0 then 4096 else cap := by
    split_ifs
    · decide
    · omega
  refine le_doubleCap 65 ?_ hpos
  have hmax : required ≤ 1 * 2 ^ 65 := h.trans (by decide)
  exact hmax.trans (Nat.mul_le_mul_right _ hpos)

/-- The queue fits its buffer. -/
def Conn.Fits (conn : Conn) : Prop :=
  conn.outBuf.length ≤ conn.outCap ∧ conn.outBuf.length ≤ sizeMax

theorem Conn.appendOutBuf_eq_some {conn conn' : Conn} {reallocOk : Bool} {data : Bytes}
    (h : conn.appendOutBuf reallocOk data = some conn') :
    ∃ cap, conn' = { conn with
        outBuf := conn.outBuf ++ data, appended := conn.appended ++ data, outCap := cap } ∧
      (conn.Fits → conn'.Fits) := by
  rw [appendOutBuf] at h
  dsimp only at h
  split_ifs at h with hnil hmax hcap
  · subst hnil
    obtain rfl := Option.some.inj h
    exact ⟨conn.outCap, by simp, id⟩
  · obtain rfl := Option.some.inj h
    refine ⟨_, rfl, fun hfits => ?_⟩
    have hle : conn.outBuf.length + data.length ≤ sizeMax := by
      have := hfits.2
      omega
    exact ⟨by simpa using le_growCap hle conn.outCap, by simpa using hle⟩
  · obtain rfl := Option.some.inj h
    refine ⟨_, rfl, fun hfits => ⟨by simp; omega, ?_⟩⟩
    have := hfits.2
    simp
    omega

/-- Without a failure of `realloc` only the length can be too much. -/
theorem Conn.appendOutBuf_true {conn : Conn} {data : Bytes}
    (h : data.length ≤ sizeMax - conn.outBuf.length) :
    ∃ cap, conn.appendOutBuf true data = some { conn with
      outBuf := conn.outBuf ++ data, appended := conn.appended ++ data, outCap := cap } := by
  rw [appendOutBuf]
  dsimp only
  split_ifs with hnil hmax hcap htrue
  · exact ⟨conn.outCap, by simp [hnil]⟩
  · omega
  · exact ⟨_, rfl⟩
  · simp at htrue
  · exact ⟨_, rfl⟩

/-! ### Sending -/

/-- The results of `send`: some bytes, `SOCKET_WOULD_BLOCK` or `EAGAIN`, `EINTR`, or an error,
which may close the socket. -/
inductive SendResult
  | sent (n : ℕ)
  | wouldBlock
  | interrupted
  | failed (closed : Bool)
deriving DecidableEq

/-- What the loop of a flush has done: the bytes the socket took, the queue that is left, the
error if there was one (with whether it closed the socket), and the results still to come. -/
structure Sending where
  wire : Bytes
  out : Bytes
  error : Option Bool
  rest : List SendResult

/-- The loop of `HttpConnection_flush`. -/
def sendLoop : List SendResult → Bytes → Sending
  | rs, [] => ⟨[], [], none, rs⟩
  | [], out => ⟨[], out, none, []⟩
  | .sent n :: rs, out =>
      if n = 0 then ⟨[], out, some false, rs⟩
      else if n < out.length then
        let r := sendLoop rs (out.drop n)
        { r with wire := out.take n ++ r.wire }
      else ⟨out, [], none, rs⟩
  | .wouldBlock :: rs, out => ⟨[], out, none, rs⟩
  | .interrupted :: rs, out => sendLoop rs out
  | .failed closed :: rs, out => ⟨[], out, some closed, rs⟩

theorem sendLoop_nil (out : Bytes) : sendLoop [] out = ⟨[], out, none, []⟩ := by
  cases out <;> rfl

/-- **The loop loses no byte** and keeps their order. -/
theorem sendLoop_wire (rs : List SendResult) (out : Bytes) :
    (sendLoop rs out).wire ++ (sendLoop rs out).out = out := by
  fun_induction sendLoop rs out with
  | case4 n rs out hne hzero hlt r ih =>
      show out.take n ++ (sendLoop rs (out.drop n)).wire ++ (sendLoop rs (out.drop n)).out = out
      rw [List.append_assoc, ih, List.take_append_drop]
  | case7 rs out hne ih => exact ih
  | _ => simp

/-- The results of a `send` on a socket without errors. -/
def SendResult.Healthy : SendResult → Prop
  | .sent n => n ≠ 0
  | .wouldBlock | .interrupted => True
  | .failed _ => False

/-- On a socket without errors the loop ends without one. -/
theorem sendLoop_error {rs : List SendResult} (out : Bytes) (h : ∀ r ∈ rs, r.Healthy) :
    (sendLoop rs out).error = none := by
  fun_induction sendLoop rs out with
  | case3 rs out hne => exact absurd rfl (h _ List.mem_cons_self)
  | case4 n rs out hne hzero hlt r ih => exact ih fun r hr => h r (List.mem_cons_of_mem _ hr)
  | case7 rs out hne ih => exact ih fun r hr => h r (List.mem_cons_of_mem _ hr)
  | case8 closed rs out hne => exact absurd (h _ List.mem_cons_self) id
  | _ => rfl

theorem sendLoop_rest (rs : List SendResult) (out : Bytes) : (sendLoop rs out).rest ⊆ rs := by
  fun_induction sendLoop rs out with
  | case1 rs => exact fun r hr => hr
  | case2 out hne => exact fun r hr => hr
  | case4 n rs out hne hzero hlt r =>
      rename_i ih
      exact fun r hr => List.mem_cons_of_mem _ (ih hr)
  | case7 rs out hne ih => exact fun r hr => List.mem_cons_of_mem _ (ih hr)
  | _ => exact fun r hr => List.mem_cons_of_mem _ hr

/-! ### Frames -/

/-- `MAX_WS_OUT_QUEUE`. -/
def maxWsOutQueue : ℕ := 2 * 1024 * 1024

/-- The head of a frame with a payload of `len` bytes. -/
def frameHeader (first : UInt8) (len : ℕ) : Bytes :=
  if len ≤ 125 then [first, UInt8.ofNat len]
  else if len ≤ 65535 then [first, 126, UInt8.ofNat (len >>> 8), UInt8.ofNat len]
  else
    [first, 127, UInt8.ofNat (len >>> 56), UInt8.ofNat (len >>> 48), UInt8.ofNat (len >>> 40),
      UInt8.ofNat (len >>> 32), UInt8.ofNat (len >>> 24), UInt8.ofNat (len >>> 16),
      UInt8.ofNat (len >>> 8), UInt8.ofNat len]

/-- `ws_build_text_frame` in a buffer of 16 bytes more than the message. -/
def wsBuildTextFrame (msg : Bytes) : Bytes := frameHeader 0x81 msg.length ++ msg

/-- `ws_build_frame` in a buffer of 16 bytes more than the payload, which is not too long for its
opcode. -/
def wsBuildFrame (opcode : Ws.Opcode) (msg : Bytes) : Bytes :=
  frameHeader (0x80 ||| opcode.code) msg.length ++ msg

/-- The close frame without a payload. -/
def closeFrame : Bytes := [0x88, 0x00]

end Server
