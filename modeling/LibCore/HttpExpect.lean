import LibCore.HttpResponseFraming

/-!
# Expecting `100 Continue`

The part of `impl_execute` in `http_client.c` that waits for an interim response before it sends the
body of a multipart request. It has its own loop around the status line and its own loop over a header
block, and hands the final status line to the response parser. Sends succeed, and leave the bytes to
come as they are.

A run of the loop is its outcome and what the client saw and sent on the way.

## Main results

* `recvExpectHeaderBlock_eq`: the header loop of the client is the one of the parser.
* `parseWithOptions_ne_hangs`: the parser returns where the end of the stream will be seen.
* `expect_agrees`: both ways to read a response agree, and the body goes out at most once, right after
  the first `100`.
-/

open CString HttpTransport

namespace HttpClient

open HttpResponseParser

/-- `HTTP_EXPECT_MAX_HEADER_COUNT`. -/
def httpExpectMaxHeaderCount : ℕ := 100

/-- `HTTP_EXPECT_MAX_HEADER_BYTES`. -/
def httpExpectMaxHeaderBytes : ℕ := 64 * 1024

/-- `HTTP_MAX_INFORMATIONAL` of the client. -/
def httpMaxInformational : ℕ := 10

/-- The loop of `recv_expect_header_block`, when `left` lines may still come and `bytes` bytes have. -/
def expectHeaderLoop (left bytes : ℕ) : Reader HttpTransport Unit := do
  let r ← readLine
  if r.line = [] then pure ()
  else
    match left with
    | 0 => Reader.reject
    | left + 1 =>
        if r.ret > httpExpectMaxHeaderBytes - bytes then Reader.reject
        else expectHeaderLoop left (bytes + r.ret)

/-- `recv_expect_header_block`. -/
def recvExpectHeaderBlock : Reader HttpTransport Unit := expectHeaderLoop httpExpectMaxHeaderCount 0

/-- What happens while the client waits: an interim response is complete, or the body is sent. -/
inductive Event where
  | interim (status : ℤ)
  | body
deriving DecidableEq

/-- The loop of the client, when `left` interim responses may still come and the body is `sent` or not:
what happens, and what it comes to. -/
def expectLoop (requestMethod : Option Bytes) (left : ℕ) (sent : Bool) (t : HttpTransport) :
    List Event × Outcome HttpTransport HttpClientResponse :=
  match readLine t with
  | .hangs => ([], .hangs)
  | .rejected => ([], .rejected)
  | .got r t =>
      match scanStatus r.line with
      | none => ([], .rejected)
      | some status =>
          if status < 100 ∨ 999 < status then ([], .rejected)
          else if status = 101 then ([], .rejected)
          else if status < 200 then
            match left with
            | 0 => ([], .rejected)
            | left + 1 =>
                match recvExpectHeaderBlock t with
                | .hangs => ([], .hangs)
                | .rejected => ([], .rejected)
                | .got _ t =>
                    if status = 100 ∧ sent = false then
                      let run := expectLoop requestMethod left true t
                      (.interim status :: .body :: run.1, run.2)
                    else
                      let run := expectLoop requestMethod left sent t
                      (.interim status :: run.1, run.2)
          else ([], parseWithOptions (some r.line) requestMethod t)

/-- The client from the head of its request to the response. -/
def awaitResponse (requestMethod : Option Bytes) (t : HttpTransport) :
    List Event × Outcome HttpTransport HttpClientResponse :=
  expectLoop requestMethod httpMaxInformational false t

/-! ### The two loops -/

theorem expectHeaderLoop_eq (left bytes : ℕ) :
    expectHeaderLoop left bytes = headerLoop false (fun _ _ => some ()) left bytes () := by
  induction left generalizing bytes with
  | zero =>
      rw [expectHeaderLoop, headerLoop]
      rfl
  | succ left ih =>
      rw [expectHeaderLoop, headerLoop]
      simp only [ih]
      rfl

/-- Both loops skip a header block in the same way. -/
theorem recvExpectHeaderBlock_eq : recvExpectHeaderBlock = interimLoop := expectHeaderLoop_eq _ _

theorem statusLoop_of_final {line : Bytes} {status : ℤ} (h : scanStatus line = some status)
    (hrange : 200 ≤ status ∧ status ≤ 999) (left : ℕ) : statusLoop left line = pure status := by
  rw [statusLoop.eq_def, h]
  simp only
  rw [if_neg (by omega), if_neg (by omega), if_neg (by omega)]

/-- The line that `recv_line` leaves fits its window. -/
theorem length_of_recvLineLoop {window consumed : ℕ} {line : Bytes} {t t' : HttpTransport}
    {r : Received} (h : recvLineLoop window line consumed t = .got (some r) t') :
    r.line.length ≤ line.length + window := by
  induction window generalizing line consumed t with
  | zero =>
      rw [recvLineLoop] at h
      injection h with h
      cases h
  | succ window ih =>
      rw [recvLineLoop] at h
      obtain ⟨c, t₁, -, h⟩ := Reader.of_bind_got h
      cases c with
      | none =>
          injection h with h
          cases h
      | some c =>
          dsimp only at h
          split_ifs at h with h0 hlf hcr hwindow
          · injection h with h
            cases h
          · injection h with h
            cases h
            simp
          · injection h with h
            cases h
          · obtain ⟨next, t₂, -, h⟩ := Reader.of_bind_got h
            split_ifs at h with hnext
            · injection h with h
              cases h
              simp
            · injection h with h
              cases h
          · have hlen := ih h
            rw [List.length_append, List.length_singleton] at hlen
            omega

theorem length_of_readLine {t t' : HttpTransport} {r : Received} (h : readLine t = .got r t') :
    r.line.length < lineSize := by
  obtain ⟨line, t₁, hrecv, hline⟩ := Reader.of_bind_got h
  cases line with
  | none => cases hline
  | some line =>
      obtain rfl : line = r := by
        injection hline
      have hlen := length_of_recvLineLoop hrecv
      simp only [List.length_nil, lineSize] at hlen ⊢
      omega

theorem scanStatus_nil : scanStatus [] = none := rfl

/-- The parser on a final status line that was read before. -/
theorem parseWithOptions_some {line : Bytes} {status : ℤ} (h : scanStatus line = some status)
    (hrange : 200 ≤ status ∧ status ≤ 999) (hlen : line.length < lineSize)
    (requestMethod : Option Bytes) :
    parseWithOptions (some line) requestMethod = parseFinal requestMethod status := by
  have hfirst : firstLine (some line) = pure line := by
    cases line with
    | nil => simp [scanStatus_nil] at h
    | cons c line => rw [firstLine, List.take_of_length_le (by omega)]
  rw [parseWithOptions, hfirst]
  change (statusLoop _ line >>= parseFinal requestMethod) = _
  rw [statusLoop_of_final h hrange]
  rfl

/-- The loop of the client comes to what the parser comes to from the status line on. -/
theorem expectLoop_snd (requestMethod : Option Bytes) (left : ℕ) (sent : Bool) (t : HttpTransport) :
    (expectLoop requestMethod left sent t).2 =
      (readLine >>= fun r => statusLoop left r.line >>= parseFinal requestMethod) t := by
  induction left using Nat.strong_induction_on generalizing sent t with
  | _ left ih =>
      rw [expectLoop.eq_def]
      cases hread : readLine t with
      | hangs => exact (Reader.bind_of_hangs hread _).symm
      | rejected => exact (Reader.bind_of_rejected hread _).symm
      | got r t₁ =>
          rw [Reader.bind_of_got hread, statusLoop.eq_def]
          dsimp only
          cases hscan : scanStatus r.line with
          | none => rfl
          | some status =>
              dsimp only
              by_cases hrange : status < 100 ∨ 999 < status
              · simp only [if_pos hrange]
                rfl
              by_cases hswitch : status = 101
              · simp only [if_neg hrange, if_pos hswitch]
                rfl
              by_cases hinterim : status < 200
              · simp only [if_neg hrange, if_neg hswitch, if_pos hinterim]
                cases left with
                | zero => rfl
                | succ left =>
                    dsimp only
                    rw [recvExpectHeaderBlock_eq, Reader.bind_bind]
                    cases hskip : interimLoop t₁ with
                    | hangs => exact (Reader.bind_of_hangs hskip _).symm
                    | rejected => exact (Reader.bind_of_rejected hskip _).symm
                    | got u t₂ =>
                        rw [Reader.bind_of_got hskip, Reader.bind_bind]
                        dsimp only
                        split_ifs
                        · exact ih left (Nat.lt_succ_self left) true t₂
                        · exact ih left (Nat.lt_succ_self left) sent t₂
              · simp only [if_neg hrange, if_neg hswitch, if_neg hinterim]
                rw [parseWithOptions_some hscan (by omega) (length_of_readLine hread)]
                rfl

/-! ### Sending the body -/

/-- The body follows a first `100`, and nothing else sends it. -/
def SendsAfterContinue (events : List Event) : Prop :=
  events.count .body ≤ 1 ∧
    ∀ before after, events = before ++ .body :: after → ∃ earlier, before = earlier ++ [.interim 100]

/-- What a round of the loop can add: nothing, an interim response, or a first `100` and the body. -/
theorem expectLoop_fst_cases (requestMethod : Option Bytes) (left : ℕ) (sent : Bool)
    (t : HttpTransport) :
    (expectLoop requestMethod left sent t).1 = [] ∨ ∃ m < left, ∃ t',
      (sent = false ∧ (expectLoop requestMethod left sent t).1 =
        .interim 100 :: .body :: (expectLoop requestMethod m true t').1) ∨
      ∃ status, (expectLoop requestMethod left sent t).1 =
        .interim status :: (expectLoop requestMethod m sent t').1 := by
  rw [expectLoop.eq_def]
  split
  · exact .inl rfl
  · exact .inl rfl
  split
  · exact .inl rfl
  rename_i r t₁ hread status hscan
  by_cases hrange : status < 100 ∨ 999 < status
  · exact .inl (by rw [if_pos hrange])
  by_cases hswitch : status = 101
  · exact .inl (by rw [if_neg hrange, if_pos hswitch])
  by_cases hinterim : status < 200
  · rw [if_neg hrange, if_neg hswitch, if_pos hinterim]
    cases left with
    | zero => exact .inl rfl
    | succ left =>
        dsimp only
        split
        · exact .inl rfl
        · exact .inl rfl
        · rename_i t' _
          refine .inr ⟨left, Nat.lt_succ_self left, t', ?_⟩
          split_ifs with hfirst
          · obtain ⟨rfl, rfl⟩ := hfirst
            exact .inl ⟨rfl, rfl⟩
          · exact .inr ⟨_, rfl⟩
  · exact .inl (by rw [if_neg hrange, if_neg hswitch, if_neg hinterim])

/-- Once sent, the body is not sent again. -/
theorem body_notMem_expectLoop (requestMethod : Option Bytes) (left : ℕ) (t : HttpTransport) :
    Event.body ∉ (expectLoop requestMethod left true t).1 := by
  induction left using Nat.strong_induction_on generalizing t with
  | _ left ih =>
      obtain hnil | ⟨m, hm, t', ⟨hsent, -⟩ | ⟨status, hevents⟩⟩ :=
        expectLoop_fst_cases requestMethod left true t
      · simp [hnil]
      · cases hsent
      · simpa [hevents] using ih m hm t'

theorem SendsAfterContinue.interim {events : List Event} (h : SendsAfterContinue events)
    (status : ℤ) : SendsAfterContinue (.interim status :: events) := by
  refine ⟨by simpa using h.1, fun before after hsplit => ?_⟩
  cases before with
  | nil => cases hsplit
  | cons e before =>
      obtain ⟨rfl, htail⟩ := List.cons.inj hsplit
      obtain ⟨earlier, rfl⟩ := h.2 before after htail
      exact ⟨.interim status :: earlier, rfl⟩

theorem sendsAfterContinue_of_notMem {events : List Event} (h : Event.body ∉ events) :
    SendsAfterContinue events := by
  refine ⟨by simp [List.count_eq_zero_of_not_mem h], fun before after hsplit => ?_⟩
  simp [hsplit] at h

theorem sendsAfterContinue_expectLoop (requestMethod : Option Bytes) (left : ℕ)
    (t : HttpTransport) : SendsAfterContinue (expectLoop requestMethod left false t).1 := by
  induction left using Nat.strong_induction_on generalizing t with
  | _ left ih =>
      obtain hnil | ⟨m, hm, t', ⟨-, hevents⟩ | ⟨status, hevents⟩⟩ :=
        expectLoop_fst_cases requestMethod left false t
      · exact sendsAfterContinue_of_notMem (by simp [hnil])
      · have hnot := body_notMem_expectLoop requestMethod m t'
        rw [hevents]
        refine ⟨by simp [List.count_eq_zero_of_not_mem hnot], fun before after hsplit => ?_⟩
        -- the one body stands behind the `100`
        match before with
        | [] => cases hsplit
        | [e] =>
            obtain ⟨rfl, -⟩ := List.cons.inj hsplit
            exact ⟨[], rfl⟩
        | e :: e' :: before =>
            obtain ⟨-, htail⟩ := List.cons.inj hsplit
            obtain ⟨-, htail⟩ := List.cons.inj htail
            simp [htail] at hnot
      · rw [hevents]
        exact (ih m hm t').interim status

/-! ### The end of the stream -/

theorem returns_readLine : Returns source readLine := returns_recvLine lineSize

theorem returns_headerLoop {σ : Type} (strict : Bool) (step : σ → Bytes → Option σ) (left bytes : ℕ) (st : σ) :
    Returns source (headerLoop strict step left bytes st) := by
  induction left generalizing bytes st with
  | zero =>
      rw [headerLoop]
      refine returns_readLine.bind fun r => ?_
      split_ifs
      · exact .reject
      · exact .pure _
      · exact .reject
      · exact .reject
  | succ left ih =>
      rw [headerLoop]
      refine returns_readLine.bind fun r => ?_
      split_ifs
      · exact .reject
      · exact .pure _
      · exact .reject
      · cases step st r.line with
        | none => exact .reject
        | some st => exact ih _ st

theorem returns_statusLoop (left : ℕ) (line : Bytes) : Returns source (statusLoop left line) := by
  induction left generalizing line with
  | zero =>
      rw [statusLoop.eq_def]
      cases scanStatus line with
      | none => exact .reject
      | some status =>
          dsimp only
          split_ifs
          · exact .reject
          · exact .reject
          · exact .reject
          · exact .pure _
  | succ left ih =>
      rw [statusLoop.eq_def]
      cases scanStatus line with
      | none => exact .reject
      | some status =>
          dsimp only
          split_ifs
          · exact .reject
          · exact .reject
          · exact (returns_headerLoop ..).bind fun _ => returns_readLine.bind fun r => ih r.line
          · exact .pure _

theorem returns_lengthLoop (n : ℕ) (buf : ByteBuffer) : Returns source (lengthLoop n buf) := by
  induction n generalizing buf with
  | zero => exact .pure _
  | succ n ih =>
      rw [lengthLoop]
      refine returns_getc.bind fun c => ?_
      dsimp only
      split_ifs
      · exact ih _
      · exact .reject

theorem returns_expectByte (c : UInt8) : Returns source (expectByte c) := by
  have heq : expectByte c = Reader.orReject getc >>= fun b => if b = c then pure () else Reader.reject := by
    rw [expectByte, Reader.bind_orReject]
    congr 1
    funext r
    cases r with
    | none => rfl
    | some b => simp
  rw [heq]
  refine returns_getc.bind fun b => ?_
  split_ifs
  · exact .pure _
  · exact .reject

/-- A chunk has at least one byte, so that the loop ends at the cap. -/
theorem returns_chunkLoop {fuel total : ℕ} (htotal : total ≤ httpMaxBody) (hfuel : httpMaxBody - total < fuel)
    (buf : ByteBuffer) : Returns source (chunkLoop fuel total buf) := by
  induction fuel generalizing total buf with
  | zero => omega
  | succ fuel ih =>
      rw [chunkLoop]
      refine returns_readLine.bind fun r => ?_
      split_ifs
      · exact .reject
      · cases parseChunkSize r.line with
        | none => exact .reject
        | some chunkSize =>
            dsimp only
            split_ifs with hzero hcap
            · exact (returns_headerLoop ..).bind fun _ => .pure _
            · exact .reject
            · exact (returns_lengthLoop _ _).bind fun buf => (returns_expectByte _).bind fun _ =>
                (returns_expectByte _).bind fun _ => ih (by omega) (by omega) buf

/-- The loop that reads to the end of the stream. -/
theorem eofLoop_ne_hangs (left : ℕ) (buf : ByteBuffer) {t : HttpTransport} (hends : source.Ends t) :
    eofLoop left buf t ≠ .hangs := by
  induction left generalizing buf t with
  | zero =>
      rw [eofLoop]
      rcases getc_cases t with ⟨b, t', hget, -⟩ | ⟨t', hget, -⟩ | ⟨-, -, hnot⟩
      · rw [Reader.bind_of_got hget]
        simp [Reader.reject]
      · rw [Reader.bind_of_got hget]
        exact fun h => by cases h
      · exact absurd hends hnot
  | succ left ih =>
      rw [eofLoop]
      rcases getc_cases t with ⟨b, t', hget, -, hiff, -⟩ | ⟨t', hget, -⟩ | ⟨-, -, hnot⟩
      · rw [Reader.bind_of_got hget]
        dsimp only
        split_ifs
        · exact ih _ (hiff.mpr hends)
        · simp [Reader.reject]
      · rw [Reader.bind_of_got hget]
        exact fun h => by cases h
      · exact absurd hends hnot

theorem readBody_ne_hangs (st : Head) {t : HttpTransport} (hends : source.Ends t) : readBody st t ≠ .hangs := by
  have hdata : ∀ {f : Reader HttpTransport ByteBuffer}, f t ≠ .hangs →
      (f >>= fun bodyBuf => pure bodyBuf.data) t ≠ .hangs :=
    fun hf => Reader.bind_ne_hangs hf fun _ _ _ h => by cases h
  rw [readBody]
  split_ifs
  · exact fun h => by cases h
  · exact fun h => by cases h
  · exact fun h => by cases h
  · exact hdata ((returns_chunkLoop (Nat.zero_le _) (by omega) _).returns hends)
  · exact hdata ((returns_lengthLoop _ _).returns hends)
  · exact hdata (eofLoop_ne_hangs _ _ hends)

/-- The parser returns where the end of the stream will be seen. -/
theorem parseWithOptions_ne_hangs (requestMethod : Option Bytes) {t : HttpTransport} (hends : source.Ends t) :
    parseWithOptions none requestMethod t ≠ .hangs := by
  have hfirst : Returns source (firstLine none) := returns_readLine.bind fun _ => .pure _
  refine hfirst.bind_ne_hangs hends fun line t hends => ?_
  refine (returns_statusLoop _ _).bind_ne_hangs hends fun status t hends => ?_
  refine (returns_headerLoop ..).bind_ne_hangs hends fun head t hends => ?_
  split_ifs
  · exact Reader.bind_ne_hangs (readBody_ne_hangs head hends) fun _ _ _ h => by cases h
  · exact fun h => by cases h

/-- **Both ways to read a response agree.** Whatever the server sends, in whatever segments, the client
that expects `100 Continue` comes to the same response, rejection or wait as the parser on its own; it
sends the body at most once, and only right after a `100`. Neither of them waits where the end of the stream
will be seen. -/
theorem expect_agrees (requestMethod : Option Bytes) (t : HttpTransport) :
    (awaitResponse requestMethod t).2 = parseWithOptions none requestMethod t ∧
      SendsAfterContinue (awaitResponse requestMethod t).1 ∧
      (source.Ends t → (awaitResponse requestMethod t).2 ≠ .hangs) := by
  have hagree : (awaitResponse requestMethod t).2 = parseWithOptions none requestMethod t := by
    rw [awaitResponse, expectLoop_snd, parseWithOptions_none, Reader.bind_bind]
    rfl
  refine ⟨hagree, sendsAfterContinue_expectLoop _ _ _, fun hends => ?_⟩
  rw [hagree]
  exact parseWithOptions_ne_hangs requestMethod hends

end HttpClient
