import LibCore.HttpHeaders
import LibCore.Readers

/-!
# The Transport of the HTTP Client

`HttpTransport_getc` and `HttpTransport_recv_line` of `http_transport.c`. What the socket will answer
is a list: bytes in segments of any size, calls that would block, the end of the stream, and errors.
`getc` reads ahead into `read_buf` and retries as long as the answer or `errno` says so. `errno` keeps
its value through calls that succeed and through the end of the stream, so a retry that once worked
can make `getc` retry for ever at the end; `hangs` is the outcome of a call that does not return.

`source` says what a transport still has to give, however it arrives.

## Main results

* `takes_getc`: `getc` takes the next byte of the stream.
* `takes_recvLine`, `refuses_recvLine`: `recv_line` takes a line that fits the window, and fails on
  one that does not.
* `returns_recvLine`: `recv_line` returns where the end of the stream will be seen.
-/

open CString HttpServer

/-- The values of `errno` that matter: `EINTR`, `EAGAIN`, and any other. -/
inductive Errno where
  | eintr
  | eagain
  | other
deriving DecidableEq

/-- `errno == EINTR || errno == EAGAIN || errno == EWOULDBLOCK`. -/
def Errno.isRetry : Errno → Bool
  | .eintr | .eagain => true
  | .other => false

/-- An answer of the socket: some bytes, `SOCKET_WOULD_BLOCK` with the `errno` it leaves, the end of
the stream, or an error. -/
inductive RecvResult where
  | data (b : UInt8) (bs : Bytes)
  | wouldBlock (errno : Errno)
  | eof
  | error (errno : Errno)
deriving DecidableEq

/-- `HttpTransport`: the bytes between `read_pos` and `read_end`, `errno`, whether the socket is open,
and what it will answer. -/
structure HttpTransport where
  readBuf : Bytes
  errno : Errno
  isOpen : Bool
  input : List RecvResult

namespace HttpTransport

/-- `sizeof(read_buf)`. -/
def readBufSize : ℕ := 8192

/-- The rest of a segment that did not fit the buffer comes with the next call. -/
def leftover (bs : Bytes) (input : List RecvResult) : List RecvResult :=
  match bs.drop (readBufSize - 1) with
  | [] => input
  | b :: bs => .data b bs :: input

/-- The loop around `recv` in `HttpTransport_getc`, on an open socket, and the first byte it gets:
`none` for `-1`. -/
def refill : Errno → List RecvResult → Outcome HttpTransport (Option UInt8)
  | _, [] => .hangs
  | errno, .data b bs :: input =>
      .got (some b) ⟨bs.take (readBufSize - 1), errno, true, leftover bs input⟩
  | _, .wouldBlock errno :: input => refill errno input
  | errno, .eof :: input => if errno.isRetry then .hangs else .got none ⟨[], errno, false, input⟩
  | _, .error errno :: input =>
      if errno.isRetry then refill errno input else .got none ⟨[], errno, true, input⟩

/-- `HttpTransport_getc`. -/
def getc : Reader HttpTransport (Option UInt8) := fun t =>
  match t.readBuf with
  | b :: bs => .got (some b) { t with readBuf := bs }
  | [] =>
      if t.isOpen then refill t.errno t.input
      else if t.errno.isRetry then .hangs
      else .got none t

/-- What `HttpTransport_recv_line` leaves in `line_buf`, and the number of bytes it returns. -/
structure Received where
  line : Bytes
  ret : ℕ
deriving DecidableEq

/-- The loop of `HttpTransport_recv_line` with `window` bytes left to read; `none` for `-1`. -/
def recvLineLoop : ℕ → Bytes → ℕ → Reader HttpTransport (Option Received)
  | 0, _, _ => pure none
  | window + 1, line, consumed => do
      match ← getc with
      | none => pure none
      | some c =>
          if c = 0 then pure none
          else if c = lf then pure (some ⟨line, consumed + 1⟩)
          else if c = cr then
            if window = 0 then pure none
            else do
              let next ← getc
              if next = some lf then pure (some ⟨line, consumed + 2⟩) else pure none
          else recvLineLoop window (line ++ [c]) (consumed + 1)

/-- `HttpTransport_recv_line`. -/
def recvLine (maxLen : ℕ) : Reader HttpTransport (Option Received) :=
  if maxLen < 2 then pure none else recvLineLoop (maxLen - 1) [] 0

/-! ### Streams -/

/-- The bytes that will arrive. -/
def arriving : List RecvResult → Bytes
  | [] => []
  | .data b bs :: input => b :: bs ++ arriving input
  | .wouldBlock _ :: input => arriving input
  | .eof :: _ => []
  | .error errno :: input => if errno.isRetry then arriving input else []

/-- Whether the end of the stream is seen as such: there is one, and `errno` asks for no retry. -/
def endsCleanly : Errno → List RecvResult → Bool
  | _, [] => false
  | errno, .data _ _ :: input => endsCleanly errno input
  | _, .wouldBlock errno :: input => endsCleanly errno input
  | errno, .eof :: _ => !errno.isRetry
  | _, .error errno :: input => if errno.isRetry then endsCleanly errno input else true

/-- A transport as a source of bytes: what it still has to give, and whether its end will be seen. -/
def source : Source HttpTransport UInt8 where
  stream t := t.readBuf ++ if t.isOpen then arriving t.input else []
  Ends t := (if t.isOpen then endsCleanly t.errno t.input else !t.errno.isRetry) = true

theorem arriving_leftover (bs : Bytes) (input : List RecvResult) :
    bs.take (readBufSize - 1) ++ arriving (leftover bs input) = bs ++ arriving input := by
  have h := List.take_append_drop (readBufSize - 1) bs
  rw [leftover]
  cases hd : bs.drop (readBufSize - 1) with
  | nil =>
      rw [hd, List.append_nil] at h
      rw [h]
  | cons b rest =>
      rw [hd] at h
      rw [arriving, ← List.append_assoc, h]

theorem endsCleanly_leftover (errno : Errno) (bs : Bytes) (input : List RecvResult) :
    endsCleanly errno (leftover bs input) = endsCleanly errno input := by
  rw [leftover]
  cases bs.drop (readBufSize - 1) with
  | nil => rfl
  | cons b rest => rfl

/-- Every byte that the socket still holds, also behind an end or an error. -/
def held : List RecvResult → Bytes
  | [] => []
  | .data b bs :: input => b :: bs ++ held input
  | _ :: input => held input

/-- Every byte that was not taken from the transport yet. -/
def unread (t : HttpTransport) : Bytes := t.readBuf ++ held t.input

theorem held_leftover (bs : Bytes) (input : List RecvResult) :
    bs.take (readBufSize - 1) ++ held (leftover bs input) = bs ++ held input := by
  have h := List.take_append_drop (readBufSize - 1) bs
  rw [leftover]
  cases hd : bs.drop (readBufSize - 1) with
  | nil =>
      rw [hd, List.append_nil] at h
      rw [h]
  | cons b rest =>
      rw [hd] at h
      rw [held, ← List.append_assoc, h]

/-- The loop around `recv` ends with the first byte that arrives, and where none does, with `-1` or not at all. -/
theorem refill_cases (errno : Errno) (input : List RecvResult) :
    (∃ b t, refill errno input = .got (some b) t ∧ arriving input = b :: source.stream t ∧
      (source.Ends t ↔ endsCleanly errno input = true) ∧ held input = b :: unread t) ∨
    (∃ t, refill errno input = .got none t ∧ arriving input = [] ∧ endsCleanly errno input = true ∧
      held input = unread t) ∨
    (refill errno input = .hangs ∧ arriving input = [] ∧ ¬endsCleanly errno input = true) := by
  induction input generalizing errno with
  | nil => exact .inr (.inr ⟨rfl, rfl, by simp [endsCleanly]⟩)
  | cons r input ih =>
      cases r with
      | data b bs =>
          refine .inl ⟨b, _, rfl, ?_, ?_, ?_⟩
          · simp [source, arriving, arriving_leftover]
          · simp [source, endsCleanly, endsCleanly_leftover]
          · simp [unread, held, held_leftover]
      | wouldBlock errno' => simpa only [refill, arriving, endsCleanly, held] using ih errno'
      | eof =>
          cases hr : errno.isRetry with
          | true => exact .inr (.inr ⟨by simp [refill, hr], rfl, by simp [endsCleanly, hr]⟩)
          | false =>
              exact .inr (.inl ⟨_, by simp only [refill, hr]; rfl, rfl, by simp [endsCleanly, hr], rfl⟩)
      | error errno' =>
          cases hr : errno'.isRetry with
          | true => simpa only [refill, arriving, endsCleanly, held, hr, if_true] using ih errno'
          | false =>
              exact .inr (.inl ⟨_, by simp only [refill, hr]; rfl, by simp [arriving, hr],
                by simp [endsCleanly, hr], rfl⟩)

/-- What a call of `getc` comes to. -/
theorem getc_cases (t : HttpTransport) :
    (∃ b t', getc t = .got (some b) t' ∧ source.stream t = b :: source.stream t' ∧
      (source.Ends t' ↔ source.Ends t) ∧ unread t = b :: unread t') ∨
    (∃ t', getc t = .got none t' ∧ source.stream t = [] ∧ source.Ends t ∧ unread t = unread t') ∨
    (getc t = .hangs ∧ source.stream t = [] ∧ ¬source.Ends t) := by
  obtain ⟨readBuf, errno, isOpen, input⟩ := t
  cases readBuf with
  | cons b bs => exact .inl ⟨b, _, rfl, rfl, Iff.rfl, rfl⟩
  | nil =>
      cases isOpen with
      | true => simpa [getc, source, unread] using refill_cases errno input
      | false =>
          cases hr : errno.isRetry with
          | true => exact .inr (.inr ⟨by simp [getc, hr], rfl, by simp [source, hr]⟩)
          | false => exact .inr (.inl ⟨_, by simp only [getc, hr]; rfl, rfl, by simp [source, hr], rfl⟩)

theorem getc_of_stream_cons {t : HttpTransport} {b : UInt8} {rest : Bytes}
    (h : source.stream t = b :: rest) :
    ∃ t', getc t = .got (some b) t' ∧ source.stream t' = rest ∧ (source.Ends t → source.Ends t') := by
  rcases getc_cases t with ⟨b', t', hget, hs, hends, -⟩ | ⟨t', -, hs, -⟩ | ⟨-, hs, -⟩
  · obtain ⟨rfl, rfl⟩ := List.cons.inj (h.symm.trans hs)
    exact ⟨t', hget, rfl, hends.mpr⟩
  · cases h.symm.trans hs
  · cases h.symm.trans hs

theorem getc_of_stream_nil {t : HttpTransport} (h : source.stream t = []) (hends : source.Ends t) :
    ∃ t', getc t = .got none t' := by
  rcases getc_cases t with ⟨b, t', -, hs, -⟩ | ⟨t', hget, -⟩ | ⟨-, -, hnot⟩
  · cases h.symm.trans hs
  · exact ⟨t', hget⟩
  · exact absurd hends hnot

/-- `getc` takes the next byte. -/
theorem takes_getc (b : UInt8) : Takes source (Reader.orReject getc) [b] b where
  whole := by
    intro t rest h
    obtain ⟨t', hget, hrest, hends⟩ := getc_of_stream_cons h
    exact ⟨t', Reader.bind_of_got hget _, hrest, hends⟩
  cut := by
    intro t hends hpre hne
    have hnil : source.stream t = [] := by
      rcases List.prefix_cons_iff.mp hpre with hnil | ⟨s, hs, hpre⟩
      · exact hnil
      · rw [List.prefix_nil.mp hpre] at hs
        exact (hne hs).elim
    obtain ⟨t', hget⟩ := getc_of_stream_nil hnil hends
    exact Reader.bind_of_got hget _

/-! ### Lines -/

/-- `recv_line` in terms of the bytes it gets, when `-1` is a failure. -/
theorem orReject_recvLineLoop (window : ℕ) (line : Bytes) (consumed : ℕ) :
    Reader.orReject (recvLineLoop (window + 1) line consumed) = (do
      let c ← Reader.orReject getc
      if c = 0 then Reader.reject
      else if c = lf then pure ⟨line, consumed + 1⟩
      else if c = cr then
        if window = 0 then Reader.reject
        else do
          let next ← Reader.orReject getc
          if next = lf then pure ⟨line, consumed + 2⟩ else Reader.reject
      else Reader.orReject (recvLineLoop window (line ++ [c]) (consumed + 1))) := by
  rw [recvLineLoop, Reader.orReject_bind, Reader.bind_orReject]
  congr 1
  funext c
  cases c with
  | none => rfl
  | some c =>
      simp only [Option.elim_some]
      split_ifs with h0 hlf hcr hwindow
      · rfl
      · rfl
      · rfl
      · rw [Reader.orReject_bind, Reader.bind_orReject]
        congr 1
        funext next
        cases next with
        | none => rfl
        | some next => by_cases hn : next = lf <;> simp [hn]
      · rfl

/-- A line on the wire: its text, and whether it ends in LF alone. -/
structure Line where
  text : Bytes
  bare : Bool
deriving DecidableEq

/-- The bytes of a line. -/
def Line.wire (l : Line) : Bytes := l.text ++ if l.bare then [lf] else crlf

/-- What a line may hold. -/
def IsText (text : Bytes) : Prop := ∀ c ∈ text, c ≠ 0 ∧ c ≠ cr ∧ c ≠ lf

instance (text : Bytes) : Decidable (IsText text) :=
  inferInstanceAs (Decidable (∀ c ∈ text, c ≠ 0 ∧ c ≠ cr ∧ c ≠ lf))

/-- The loop takes a line that fits the window. -/
theorem takes_recvLineLoop {l : Line} (htext : IsText l.text) {window : ℕ}
    (hfits : l.wire.length ≤ window) (line : Bytes) (consumed : ℕ) :
    Takes source (Reader.orReject (recvLineLoop window line consumed)) l.wire
      ⟨line ++ l.text, consumed + l.wire.length⟩ := by
  obtain ⟨text, bare⟩ := l
  obtain ⟨window, rfl⟩ : ∃ w, window = w + 1 := by
    have hpos : 0 < window := by
      refine lt_of_lt_of_le ?_ hfits
      cases bare <;> simp [Line.wire, crlf]
    exact ⟨window - 1, by omega⟩
  have hlf : lf ≠ 0 := by decide
  have hcr : cr ≠ 0 := by decide
  have hcrlf : cr ≠ lf := by decide
  induction text generalizing window line consumed with
  | nil =>
      rw [orReject_recvLineLoop]
      cases bare with
      | true => exact (takes_getc lf).bind (by simpa [hlf, Line.wire] using Takes.pure _)
      | false =>
          have hwindow : window ≠ 0 := by
            intro h
            simp [Line.wire, crlf, h] at hfits
          refine (takes_getc cr).bind ?_
          simp only [hcr, hcrlf, hwindow, if_false, if_true]
          exact (takes_getc lf).bind (by simpa [Line.wire, crlf] using Takes.pure _)
  | cons c text ih =>
      obtain ⟨⟨h0, hccr, hclf⟩, htext⟩ := List.forall_mem_cons.mp htext
      have hlen : (Line.wire ⟨c :: text, bare⟩).length = (Line.wire ⟨text, bare⟩).length + 1 := by
        simp [Line.wire]
      obtain ⟨window, rfl⟩ : ∃ w, window = w + 1 := by
        have hpos : 0 < (Line.wire ⟨text, bare⟩).length := by cases bare <;> simp [Line.wire, crlf]
        exact ⟨window - 1, by omega⟩
      rw [orReject_recvLineLoop]
      refine (takes_getc c).bind ?_
      simp only [h0, hclf, hccr, if_false]
      convert ih (line ++ [c]) (consumed + 1) htext window (by omega) using 2
      · rfl
      · simp
      · omega

/-- `recv_line` takes a line that fits its window. -/
theorem takes_recvLine {l : Line} (htext : IsText l.text) {maxLen : ℕ}
    (hfits : l.wire.length < maxLen) :
    Takes source (Reader.orReject (recvLine maxLen)) l.wire ⟨l.text, l.wire.length⟩ := by
  have hpos : 0 < l.wire.length := by cases h : l.bare <;> simp [Line.wire, crlf, h]
  rw [recvLine, if_neg (by omega)]
  simpa using takes_recvLineLoop htext (Nat.le_sub_one_of_lt hfits) [] 0

/-- The loop fails when the window is full and no line has ended. -/
theorem refuses_recvLineLoop {text : Bytes} (htext : IsText text) (line : Bytes) (consumed : ℕ) :
    Refuses source (Reader.orReject (recvLineLoop text.length line consumed)) text := by
  induction text generalizing line consumed with
  | nil => exact refuses_reject
  | cons c text ih =>
      obtain ⟨⟨h0, hccr, hclf⟩, htext⟩ := List.forall_mem_cons.mp htext
      rw [List.length_cons, orReject_recvLineLoop]
      refine (takes_getc c).bind_refuses ?_
      simp only [h0, hclf, hccr, if_false]
      exact ih htext (line ++ [c]) (consumed + 1)

/-- `recv_line` fails on a line that does not fit its window. -/
theorem refuses_recvLine {text : Bytes} (htext : IsText text) {maxLen : ℕ}
    (hlen : maxLen ≤ text.length + 1) :
    Refuses source (Reader.orReject (recvLine maxLen)) text := by
  rw [recvLine]
  split_ifs with hmax
  · exact refuses_reject.append text
  · have hwindow : (text.take (maxLen - 1)).length = maxLen - 1 := by
      rw [List.length_take]
      omega
    have htake : IsText (text.take (maxLen - 1)) := fun c hc => htext c (List.mem_of_mem_take hc)
    have h := refuses_recvLineLoop htake [] 0
    rw [hwindow] at h
    simpa using h.append (text.drop (maxLen - 1))

/-! ### The end of the stream -/

theorem returns_getc : Returns source (Reader.orReject getc) where
  returns := by
    intro t hends h
    rcases getc_cases t with ⟨b, t', hget, -⟩ | ⟨t', hget, -⟩ | ⟨-, -, hnot⟩
    · cases (Reader.bind_of_got hget _).symm.trans h
    · cases (Reader.bind_of_got hget _).symm.trans h
    · exact hnot hends
  ends := by
    intro t b t' hends h
    obtain ⟨r, t₁, hget, hr⟩ := Reader.of_bind_got h
    rcases getc_cases t with ⟨b', t₂, hget', -, hiff, -⟩ | ⟨t₂, hget', -⟩ | ⟨hget', -⟩
    · cases hget.symm.trans hget'
      cases hr
      exact hiff.mpr hends
    · cases hget.symm.trans hget'
      cases hr
    · cases hget.symm.trans hget'

theorem returns_recvLineLoop (window : ℕ) (line : Bytes) (consumed : ℕ) :
    Returns source (Reader.orReject (recvLineLoop window line consumed)) := by
  induction window generalizing line consumed with
  | zero => exact .reject
  | succ window ih =>
      rw [orReject_recvLineLoop]
      refine returns_getc.bind fun c => ?_
      split_ifs
      · exact .reject
      · exact .pure _
      · exact .reject
      · refine returns_getc.bind fun next => ?_
        split_ifs
        · exact .pure _
        · exact .reject
      · exact ih _ _

/-- `recv_line` returns where the end of the stream will be seen. -/
theorem returns_recvLine (maxLen : ℕ) : Returns source (Reader.orReject (recvLine maxLen)) := by
  rw [recvLine]
  split_ifs
  · exact .reject
  · exact returns_recvLineLoop _ _ _

end HttpTransport
