import LibCore.HttpTransport
import LibCore.RawMemory

/-!
# Reading a Line into a Buffer

`HttpTransport_recv_line` of `http_transport.c` with the buffer it writes to. A store outside of `line_buf` has
no result. What the callers rely on is `Result`: how the number that is returned, the string in the buffer and
the bytes taken from the transport belong together.

## Main results

* `recvLine_iff`: every call keeps the contract except where the stream stops in the middle of a line while
  `errno` still asks for a retry; there the call does not return.
* `recvLine_eq`: without the buffer it is the `recv_line` of the other modules.
-/

open CString HttpServer HttpTransport RawMemory

namespace RecvLine

/-! ### The function -/

/-- `line_buf[i] = c`. -/
def put (lineBuf : Block) (i : ℕ) (c : UInt8) : Reader HttpTransport Block :=
  Reader.orReject (pure (store lineBuf i [c]))

/-- The label `fail`. -/
def fail (lineBuf : Block) : Reader HttpTransport (Block × ℤ) := do
  let lineBuf ← put lineBuf 0 0
  pure (lineBuf, -1)

/-- The end of a line. -/
def finish (lineBuf : Block) (outLen consumed : ℕ) : Reader HttpTransport (Block × ℤ) := do
  let lineBuf ← put lineBuf outLen 0
  pure (lineBuf, consumed)

/-- The loop of `HttpTransport_recv_line`. -/
def recvLineLoop (maxLen : ℕ) (lineBuf : Block) (consumed outLen : ℕ) : Reader HttpTransport (Block × ℤ) :=
  if consumed < maxLen - 1 then do
    match ← getc with
    | none => fail lineBuf
    | some c =>
        if c = 0 then fail lineBuf
        else if c = lf then finish lineBuf outLen (consumed + 1)
        else if c = cr then
          -- the CR is the last byte of the window
          if maxLen - 1 ≤ consumed + 1 then fail lineBuf
          else do
            let next ← getc
            if next = some lf then finish lineBuf outLen (consumed + 2) else fail lineBuf
        else do
          let lineBuf ← put lineBuf outLen c
          recvLineLoop maxLen lineBuf (consumed + 1) (outLen + 1)
  else fail lineBuf
termination_by maxLen - 1 - consumed

/-- `HttpTransport_recv_line`. -/
def recvLine (lineBuf : Block) (maxLen : ℕ) : Reader HttpTransport (Block × ℤ) := do
  let lineBuf ← if 1 ≤ maxLen then put lineBuf 0 0 else pure lineBuf
  if maxLen < 2 then pure (lineBuf, -1) else recvLineLoop maxLen lineBuf 0 0

/-! ### The contract -/

/-- What the callers rely on after a call that took the bytes between `unread t` and `unread t'`. -/
def Result (maxLen : ℕ) (t : HttpTransport) (result : Block × ℤ) (t' : HttpTransport) : Prop :=
  (∃ l : Line, IsText l.text ∧ cstring result.1 = some l.text ∧ unread t = l.wire ++ unread t' ∧
    result.2 = l.wire.length ∧ 0 < result.2 ∧ result.2 ≤ maxLen - 1 ∧
    result.2 - l.text.length = if l.bare then 1 else 2) ∨
  (result.2 = -1 ∧ cstring result.1 = some [] ∧
    ∃ consumed, unread t = consumed ++ unread t' ∧ consumed.length ≤ maxLen - 1)

/-- The call returns, and with a result that its callers rely on. -/
def Contract (maxLen : ℕ) (t : HttpTransport) (o : Outcome HttpTransport (Block × ℤ)) : Prop :=
  o ≠ .hangs ∧ o.Holds (Result maxLen t)

/-- The stream stops in the middle of a line, within the window. -/
def IsCut (window : ℕ) (stream : Bytes) : Prop :=
  stream.length < window ∧ ∃ text, IsText text ∧ (stream = text ∨ stream = text ++ [cr])

/-! ### The buffer -/

theorem put_append (front : Block) (cell : Option UInt8) (back : Block) (c : UInt8) :
    put (front ++ cell :: back) front.length c = pure (front ++ some c :: back) := by
  have hstore := @store_append front [cell] back [c] rfl
  rw [List.singleton_append] at hstore
  rw [put, hstore]
  rfl

theorem fail_eq {lineBuf : Block} (hne : lineBuf ≠ []) :
    ∃ left, fail lineBuf = pure (left, -1) ∧ cstring left = some [] := by
  obtain ⟨cell, back, rfl⟩ := List.exists_cons_of_ne_nil hne
  have hput := put_append [] cell back 0
  rw [List.nil_append, List.length_nil] at hput
  refine ⟨some 0 :: back, ?_, rfl⟩
  rw [fail, hput]
  rfl

theorem finish_eq {text : Bytes} (htext : IsText text) (cell : Option UInt8) (back : Block) (consumed : ℕ) :
    ∃ left, finish (text.map some ++ cell :: back) text.length consumed = pure (left, (consumed : ℤ)) ∧
      cstring left = some text := by
  have hput := put_append (text.map some) cell back 0
  rw [List.length_map] at hput
  refine ⟨text.map some ++ some 0 :: back, ?_, cstring_append_zero (fun h => (htext 0 h).1 rfl) back⟩
  rw [finish, hput]
  rfl

/-- A round of the loop that stores a byte goes on behind it. -/
theorem put_recvLineLoop (maxLen : ℕ) (text : Bytes) (cell : Option UInt8) (back : Block) (c : UInt8) :
    (do
      let lineBuf ← put (text.map some ++ cell :: back) text.length c
      recvLineLoop maxLen lineBuf (text.length + 1) (text.length + 1)) =
    recvLineLoop maxLen ((text ++ [c]).map some ++ back) (text ++ [c]).length (text ++ [c]).length := by
  have hput := put_append (text.map some) cell back c
  rw [List.length_map] at hput
  rw [hput, List.map_append, List.append_assoc, List.length_append]
  rfl

/-! ### What a call returns -/

/-- `Result` behind `text`, with `window` bytes to go. -/
def Took (text : Bytes) (window : ℕ) (t : HttpTransport) (result : Block × ℤ) (t' : HttpTransport) : Prop :=
  (∃ l : Line, IsText l.text ∧ cstring result.1 = some (text ++ l.text) ∧ unread t = l.wire ++ unread t' ∧
    result.2 = (text.length + l.wire.length : ℕ) ∧ l.wire.length ≤ window) ∨
  (result.2 = -1 ∧ cstring result.1 = some [] ∧
    ∃ consumed, unread t = consumed ++ unread t' ∧ consumed.length ≤ window)

theorem Took.cons {text : Bytes} {window : ℕ} {c : UInt8} {t t₁ t' : HttpTransport} {result : Block × ℤ}
    (hc : c ≠ 0 ∧ c ≠ cr ∧ c ≠ lf) (ht : unread t = c :: unread t₁)
      (h : Took (text ++ [c]) window t₁ result t') :
    Took text (window + 1) t result t' := by
  rcases h with ⟨⟨s, bare⟩, hs, hline, hunread, hret, hlen⟩ | ⟨hret, hline, consumed, hunread, hlen⟩
  · have hwire : (Line.mk (c :: s) bare).wire = c :: (Line.mk s bare).wire := rfl
    refine .inl ⟨⟨c :: s, bare⟩, List.forall_mem_cons.mpr ⟨hc, hs⟩, ?_, ?_, ?_, ?_⟩
    · rw [hline, List.append_assoc, List.singleton_append]
    · rw [ht, hunread, hwire, List.cons_append]
    · rw [hret, hwire, List.length_append, List.length_singleton, List.length_cons]
      congr 1
      omega
    · rw [hwire, List.length_cons]
      exact Nat.succ_le_succ hlen
  · refine .inr ⟨hret, hline, c :: consumed, ?_, Nat.succ_le_succ hlen⟩
    rw [ht, hunread, List.cons_append]

theorem holds_getc (t : HttpTransport) : (getc t).Holds fun c t' => unread t = c.toList ++ unread t' := by
  rcases getc_cases t with ⟨b, t', hget, -, -, hunread⟩ | ⟨t', hget, -, -, hunread⟩ | ⟨hget, -⟩
  · rw [hget]
    exact hunread
  · rw [hget]
    exact hunread
  · rw [hget]
    trivial

theorem holds_fail {text : Bytes} {window : ℕ} {lineBuf : Block} (hne : lineBuf ≠ []) {t t' : HttpTransport}
    {consumed : Bytes} (hunread : unread t = consumed ++ unread t') (hlen : consumed.length ≤ window) :
    (fail lineBuf t').Holds (Took text window t) := by
  obtain ⟨left, hfail, hleft⟩ := fail_eq hne
  rw [hfail]
  exact .inr ⟨rfl, hleft, consumed, hunread, hlen⟩

theorem holds_finish {text : Bytes} (htext : IsText text) {window : ℕ} {rest : Block} (hne : rest ≠ [])
    {t t' : HttpTransport} (bare : Bool) (hunread : unread t = (Line.mk [] bare).wire ++ unread t')
    (hlen : (Line.mk [] bare).wire.length ≤ window) :
    (finish (text.map some ++ rest) text.length (text.length + (Line.mk [] bare).wire.length) t').Holds
      (Took text window t) := by
  obtain ⟨cell, back, rfl⟩ := List.exists_cons_of_ne_nil hne
  obtain ⟨left, hfinish, hleft⟩ := finish_eq htext cell back (text.length + (Line.mk [] bare).wire.length)
  rw [hfinish]
  refine .inl ⟨⟨[], bare⟩, by simp [IsText], ?_, hunread, rfl, hlen⟩
  rw [hleft, List.append_nil]

/-- The loop takes a line or fails, within its window, whatever the transport gives. -/
theorem holds_recvLineLoop {maxLen window : ℕ} {text : Bytes} (htext : IsText text) {rest : Block}
    (hwindow : text.length + window = maxLen - 1) (hroom : window < rest.length) (t : HttpTransport) :
    (recvLineLoop maxLen (text.map some ++ rest) text.length text.length t).Holds (Took text window t) := by
  induction window generalizing text rest t with
  | zero =>
      have hne : text.map some ++ rest ≠ [] := by
        refine List.append_ne_nil_of_right_ne_nil _ (List.ne_nil_of_length_pos hroom)
      rw [recvLineLoop, if_neg (by omega)]
      exact holds_fail hne (List.nil_append _).symm le_rfl
  | succ window ih =>
      have hrest : rest ≠ [] := List.ne_nil_of_length_pos (Nat.zero_lt_of_lt hroom)
      have hne : text.map some ++ rest ≠ [] := List.append_ne_nil_of_right_ne_nil _ hrest
      rw [recvLineLoop, if_pos (by omega)]
      refine (holds_getc t).bind fun c t₁ h₁ => ?_
      cases c with
      | none => exact holds_fail hne h₁ (Nat.zero_le _)
      | some c =>
          dsimp only
          split_ifs with h0 hlf hcr hlast
          · exact holds_fail hne h₁ (Nat.succ_le_succ (Nat.zero_le _))
          · subst hlf
            exact holds_finish htext hrest true h₁ (Nat.succ_le_succ (Nat.zero_le _))
          · exact holds_fail hne h₁ (Nat.succ_le_succ (Nat.zero_le _))
          · refine (holds_getc t₁).bind fun next t₂ h₂ => ?_
            have h₁₂ : unread t = (c :: next.toList) ++ unread t₂ := by
              rw [h₁, h₂]
              rfl
            have hlen : (c :: next.toList).length ≤ window + 1 := by
              have : next.toList.length ≤ 1 := by cases next <;> simp
              rw [List.length_cons]
              omega
            split_ifs with hnext
            · subst hnext hcr
              exact holds_finish htext hrest false h₁₂ hlen
            · exact holds_fail hne h₁₂ hlen
          · have hc : c ≠ 0 ∧ c ≠ cr ∧ c ≠ lf := ⟨h0, hcr, hlf⟩
            obtain ⟨cell, back, rfl⟩ := List.exists_cons_of_ne_nil hrest
            have htext' : IsText (text ++ [c]) := List.forall_mem_append.mpr ⟨htext, by simpa using hc⟩
            have hstep := @ih (text ++ [c]) htext' back
              (by rw [List.length_append, List.length_singleton]; omega)
              (by rw [List.length_cons] at hroom; omega) t₁
            rw [put_recvLineLoop]
            exact hstep.mono fun result t' => Took.cons hc h₁

/-! ### Whether a call returns -/

theorem IsCut.nil (window : ℕ) : IsCut (window + 1) [] :=
  ⟨Nat.succ_pos window, [], by simp [IsText], .inl rfl⟩

theorem not_isCut_cons {window : ℕ} {c : UInt8} (hc : c = 0 ∨ c = lf) (s : Bytes) :
    ¬IsCut window (c :: s) := by
  rintro ⟨-, text, htext, hs⟩
  have hcr : c ≠ cr := by
    rcases hc with rfl | rfl <;> decide
  cases text with
  | nil =>
      rcases hs with hs | hs
      · cases hs
      · exact hcr (List.cons.inj hs).1
  | cons d text =>
      have hd : c = d := by
        rcases hs with hs | hs <;> exact (List.cons.inj hs).1
      obtain ⟨h0, -, hlf⟩ := htext d List.mem_cons_self
      exact hc.elim (fun h => h0 (hd ▸ h)) fun h => hlf (hd ▸ h)

theorem isCut_cr_cons {window : ℕ} {s : Bytes} : IsCut window (cr :: s) ↔ s = [] ∧ 1 < window := by
  constructor
  · rintro ⟨hlen, text, htext, hs⟩
    cases text with
    | nil =>
        rcases hs with hs | hs
        · cases hs
        · obtain rfl : s = [] := (List.cons.inj hs).2
          exact ⟨rfl, hlen⟩
    | cons d text =>
        have hd : cr = d := by
          rcases hs with hs | hs <;> exact (List.cons.inj hs).1
        exact absurd hd.symm (htext d List.mem_cons_self).2.1
  · rintro ⟨rfl, hlen⟩
    exact ⟨hlen, [], by simp [IsText], .inr rfl⟩

theorem isCut_cons {window : ℕ} {c : UInt8} (hc : c ≠ 0 ∧ c ≠ cr ∧ c ≠ lf) {s : Bytes} :
    IsCut (window + 1) (c :: s) ↔ IsCut window s := by
  constructor
  · rintro ⟨hlen, text, htext, hs⟩
    cases text with
    | nil =>
        rcases hs with hs | hs
        · cases hs
        · exact absurd (List.cons.inj hs).1 hc.2.1
    | cons d text =>
        have htext' : IsText text := fun e he => htext e (List.mem_cons_of_mem d he)
        exact ⟨Nat.lt_of_succ_lt_succ hlen, text, htext',
          hs.imp (fun h => (List.cons.inj h).2) fun h => (List.cons.inj h).2⟩
  · rintro ⟨hlen, text, htext, hs⟩
    exact ⟨Nat.succ_lt_succ hlen, c :: text, List.forall_mem_cons.mpr ⟨hc, htext⟩,
      hs.imp (congrArg (c :: ·)) (congrArg (c :: ·))⟩

theorem fail_ne_hangs {lineBuf : Block} (hne : lineBuf ≠ []) (t : HttpTransport) :
    fail lineBuf t ≠ .hangs := by
  obtain ⟨left, hfail, -⟩ := fail_eq hne
  rw [hfail]
  exact nofun

theorem finish_ne_hangs {text : Bytes} (htext : IsText text) {rest : Block} (hne : rest ≠ []) (consumed : ℕ)
    (t : HttpTransport) : finish (text.map some ++ rest) text.length consumed t ≠ .hangs := by
  obtain ⟨cell, back, rfl⟩ := List.exists_cons_of_ne_nil hne
  obtain ⟨left, hfinish, -⟩ := finish_eq htext cell back consumed
  rw [hfinish]
  exact nofun

/-- The loop does not return exactly where the stream stops in the middle of the line and its end is not seen. -/
theorem recvLineLoop_hangs_iff {maxLen window : ℕ} {text : Bytes} (htext : IsText text) {rest : Block}
    (hwindow : text.length + window = maxLen - 1) (hroom : window < rest.length) (t : HttpTransport) :
    recvLineLoop maxLen (text.map some ++ rest) text.length text.length t = .hangs ↔
      IsCut window (source.stream t) ∧ ¬source.Ends t := by
  induction window generalizing text rest t with
  | zero =>
      have hne : text.map some ++ rest ≠ [] := by
        refine List.append_ne_nil_of_right_ne_nil _ (List.ne_nil_of_length_pos hroom)
      rw [recvLineLoop, if_neg (by omega)]
      exact iff_of_false (fail_ne_hangs hne t) fun h => Nat.not_lt_zero _ h.1.1
  | succ window ih =>
      have hrest : rest ≠ [] := List.ne_nil_of_length_pos (Nat.zero_lt_of_lt hroom)
      have hne : text.map some ++ rest ≠ [] := List.append_ne_nil_of_right_ne_nil _ hrest
      rw [recvLineLoop, if_pos (by omega)]
      rcases getc_cases t with ⟨c, t₁, hget, hs, hends, -⟩ | ⟨t₁, hget, hs, hends, -⟩ | ⟨hget, hs, hends⟩
      · rw [Reader.bind_of_got hget, hs, ← hends]
        dsimp only
        split_ifs with h0 hlf hcr hlast
        · exact iff_of_false (fail_ne_hangs hne t₁) fun h => not_isCut_cons (.inl h0) _ h.1
        · exact iff_of_false (finish_ne_hangs htext hrest _ t₁) fun h => not_isCut_cons (.inr hlf) _ h.1
        · subst hcr
          refine iff_of_false (fail_ne_hangs hne t₁) fun h => ?_
          have := (isCut_cr_cons.mp h.1).2
          omega
        · subst hcr
          rw [isCut_cr_cons]
          rcases getc_cases t₁ with ⟨next, t₂, hget, hs, -⟩ | ⟨t₂, hget, -, hends, -⟩ | ⟨hget, hs, hends⟩
          · rw [Reader.bind_of_got hget, hs]
            refine iff_of_false ?_ nofun
            split_ifs
            · exact finish_ne_hangs htext hrest _ t₂
            · exact fail_ne_hangs hne t₂
          · rw [Reader.bind_of_got hget]
            exact iff_of_false (fail_ne_hangs hne t₂) fun h => h.2 hends
          · exact iff_of_true (Reader.bind_of_hangs hget _) ⟨⟨hs, by omega⟩, hends⟩
        · have hc : c ≠ 0 ∧ c ≠ cr ∧ c ≠ lf := ⟨h0, hcr, hlf⟩
          obtain ⟨cell, back, rfl⟩ := List.exists_cons_of_ne_nil hrest
          have htext' : IsText (text ++ [c]) := List.forall_mem_append.mpr ⟨htext, by simpa using hc⟩
          have hstep := @ih (text ++ [c]) htext' back
            (by rw [List.length_append, List.length_singleton]; omega)
            (by rw [List.length_cons] at hroom; omega) t₁
          rw [put_recvLineLoop, isCut_cons hc]
          exact hstep
      · rw [Reader.bind_of_got hget]
        exact iff_of_false (fail_ne_hangs hne t₁) fun h => h.2 hends
      · rw [hs]
        exact iff_of_true (Reader.bind_of_hangs hget _) ⟨IsCut.nil window, hends⟩

/-! ### The whole function -/

/-- The function is its loop on a buffer that was stored to once. -/
theorem recvLine_eq_loop {lineBuf : Block} {maxLen : ℕ} (hmax : 2 ≤ maxLen)
    (hroom : maxLen ≤ lineBuf.length) :
    ∃ rest : Block, rest.length = lineBuf.length ∧ recvLine lineBuf maxLen =
      recvLineLoop maxLen rest 0 0 := by
  have hne : lineBuf ≠ [] := List.ne_nil_of_length_pos (by omega)
  obtain ⟨cell, back, rfl⟩ := List.exists_cons_of_ne_nil hne
  have hput := put_append [] cell back 0
  rw [List.nil_append, List.length_nil] at hput
  refine ⟨some 0 :: back, rfl, ?_⟩
  rw [recvLine, if_pos (by omega), hput]
  change (if maxLen < 2 then _ else _) = _
  rw [if_neg (by omega)]
  rfl

theorem Took.result {maxLen : ℕ} (hmax : 2 ≤ maxLen) {t t' : HttpTransport} {result : Block × ℤ}
    (h : Took [] (maxLen - 1) t result t') : Result maxLen t result t' := by
  rcases h with ⟨⟨s, bare⟩, hs, hline, hunread, hret, hlen⟩ | h
  · have hwire : (Line.mk s bare).wire.length = s.length + if bare then 1 else 2 := by
      cases bare <;> simp [Line.wire, crlf]
    rw [List.length_nil, Nat.zero_add] at hret
    refine .inl ⟨⟨s, bare⟩, hs, hline, hunread, hret, ?_, ?_, ?_⟩
    · rw [hret, hwire]
      cases bare <;> simp; omega
    · rw [hret]
      omega
    · rw [hret, hwire]
      cases bare <;> simp
  · exact .inr h

/-- **The contract of `recv_line`** is kept exactly where the stream does not stop in the middle of a line with
a retry left in `errno`. -/
theorem recvLine_iff {lineBuf : Block} {maxLen : ℕ} (hmax : 2 ≤ maxLen) (hroom : maxLen ≤ lineBuf.length)
    (t : HttpTransport) :
    Contract maxLen t (recvLine lineBuf maxLen t) ↔
      ¬(IsCut (maxLen - 1) (source.stream t) ∧ ¬source.Ends t) := by
  obtain ⟨rest, hlen, hloop⟩ := recvLine_eq_loop hmax hroom
  have hwindow : ([] : Bytes).length + (maxLen - 1) = maxLen - 1 := Nat.zero_add _
  have hrest : maxLen - 1 < rest.length := by omega
  have hempty : IsText [] := by simp [IsText]
  have hholds := holds_recvLineLoop hempty hwindow hrest t
  rw [hloop, Contract, Ne, ← recvLineLoop_hangs_iff hempty hwindow hrest t]
  exact and_iff_left (hholds.mono fun result t' => Took.result hmax)

/-- A transport with a line and the end of the stream behind it. -/
theorem recvLine_line :
    Contract 16 ⟨[], .other, true, [.data 0x41 [cr, lf], .eof]⟩
      (recvLine (malloc 16) 16 ⟨[], .other, true, [.data 0x41 [cr, lf], .eof]⟩) :=
  (recvLine_iff (by decide) (length_malloc 16).ge _).mpr fun h => h.2 rfl

/-- A signal interrupts the first `recv`; the peer sends one byte and closes. The call does not return. -/
theorem recvLine_interrupted :
    ¬Contract 16 ⟨[], .other, true, [.error .eintr, .data 0x41 [], .eof]⟩
      (recvLine (malloc 16) 16 ⟨[], .other, true, [.error .eintr, .data 0x41 [], .eof]⟩) := by
  obtain ⟨rest, hlen, hloop⟩ := recvLine_eq_loop (by decide) (length_malloc 16).ge
  rw [length_malloc] at hlen
  have hcut : IsCut 15 [0x41] := ⟨by decide, [0x41], List.forall_mem_singleton.mpr (by decide), .inl rfl⟩
  have hhangs := (@recvLineLoop_hangs_iff 16 15 [] (by simp [IsText]) rest rfl (by omega)
    ⟨[], .other, true, [.error .eintr, .data 0x41 [], .eof]⟩).mpr ⟨hcut, Bool.false_ne_true⟩
  rw [hloop]
  exact fun h => h.1 hhangs

/-! ### Without the buffer -/

/-- What the other modules use of a result. -/
def received (result : Block × ℤ) : Option Received :=
  if result.2 < 0 then none else (cstring result.1).map fun line => ⟨line, result.2.toNat⟩

theorem fail_received {lineBuf : Block} (hne : lineBuf ≠ []) :
    (fail lineBuf >>= fun result => pure (received result)) = pure none := by
  obtain ⟨left, hfail, -⟩ := fail_eq hne
  rw [hfail]
  rfl

theorem finish_received {text : Bytes} (htext : IsText text) {rest : Block} (hne : rest ≠ [])
    (consumed : ℕ) :
    (finish (text.map some ++ rest) text.length consumed >>= fun result => pure (received result)) =
      pure (some ⟨text, consumed⟩) := by
  obtain ⟨cell, back, rfl⟩ := List.exists_cons_of_ne_nil hne
  obtain ⟨left, hfinish, hleft⟩ := finish_eq htext cell back consumed
  rw [hfinish]
  change (pure (received (left, (consumed : ℤ))) : Reader HttpTransport (Option Received)) = _
  rw [received, if_neg (by simp), hleft]
  rfl

theorem recvLineLoop_received {maxLen window : ℕ} {text : Bytes} (htext : IsText text) {rest : Block}
    (hwindow : text.length + window = maxLen - 1) (hroom : window < rest.length) :
    (recvLineLoop maxLen (text.map some ++ rest) text.length text.length >>= fun result =>
      pure (received result)) =
      HttpTransport.recvLineLoop window text text.length := by
  induction window generalizing text rest with
  | zero =>
      have hne : text.map some ++ rest ≠ [] := by
        refine List.append_ne_nil_of_right_ne_nil _ (List.ne_nil_of_length_pos hroom)
      rw [recvLineLoop, if_neg (by omega), HttpTransport.recvLineLoop]
      exact fail_received hne
  | succ window ih =>
      have hrest : rest ≠ [] := List.ne_nil_of_length_pos (Nat.zero_lt_of_lt hroom)
      have hne : text.map some ++ rest ≠ [] := List.append_ne_nil_of_right_ne_nil _ hrest
      rw [recvLineLoop, if_pos (by omega), HttpTransport.recvLineLoop, Reader.bind_bind]
      congr 1
      funext c
      cases c with
      | none => exact fail_received hne
      | some c =>
          dsimp only
          have hlast : maxLen - 1 ≤ text.length + 1 ↔ window = 0 := by omega
          simp only [hlast]
          split_ifs with h0 hlf hcr hwindow0
          · exact fail_received hne
          · exact finish_received htext hrest _
          · exact fail_received hne
          · rw [Reader.bind_bind]
            congr 1
            funext next
            split_ifs
            · exact finish_received htext hrest _
            · exact fail_received hne
          · have hc : c ≠ 0 ∧ c ≠ cr ∧ c ≠ lf := ⟨h0, hcr, hlf⟩
            obtain ⟨cell, back, rfl⟩ := List.exists_cons_of_ne_nil hrest
            have htext' : IsText (text ++ [c]) := List.forall_mem_append.mpr ⟨htext, by simpa using hc⟩
            have hstep := @ih (text ++ [c]) htext' back
              (by rw [List.length_append, List.length_singleton]; omega)
              (by rw [List.length_cons] at hroom; omega)
            rw [put_recvLineLoop, hstep, List.length_append, List.length_singleton]

/-- Without the buffer, `recv_line` is that of the other modules. -/
theorem recvLine_eq {lineBuf : Block} {maxLen : ℕ} (hmax : 2 ≤ maxLen) (hroom : maxLen ≤ lineBuf.length) :
    (recvLine lineBuf maxLen >>= fun result => pure (received result)) = HttpTransport.recvLine maxLen := by
  obtain ⟨rest, hlen, hloop⟩ := recvLine_eq_loop hmax hroom
  rw [hloop, HttpTransport.recvLine, if_neg (by omega)]
  exact @recvLineLoop_received maxLen (maxLen - 1) [] (by simp [IsText]) rest (Nat.zero_add _) (by omega)

end RecvLine
