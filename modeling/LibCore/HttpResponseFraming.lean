import LibCore.HttpHeaderGrammar
import LibCore.HttpResponseHead

/-!
# Framing of Responses

A response as it is written: interim responses, a status line, fields, and a body that is chunked or of
a given length. The parser takes exactly the bytes of such a response from whatever comes in,
whatever the segments it arrives in, and what follows is still there for the next reader. Every line
has to fit the line buffer of 4096 bytes, which leaves room for 4095 bytes with the end of the line.

## Main results

* `takes_lengthLoop`, `takes_chunkLoop`: the two bodies.
* `response_framing`: responses are taken whole, or refused when their framing is broken.
* `response_long_extension`: the parser refuses a chunk extension that does not fit the line buffer.
-/

open CString HttpServer HttpTransport

namespace HttpResponseParser

/-! ### Bodies -/

/-- The body loop takes the next bytes into the buffer. -/
theorem takes_lengthLoop {limit : ℕ} (data : Bytes) {buf : ByteBuffer} (hroom : buf.Room limit)
    (hlen : buf.data.length + data.length ≤ limit) :
    ∃ buf' : ByteBuffer, Takes source (lengthLoop data.length buf) data buf' ∧
      buf'.data = buf.data ++ data ∧ buf'.Room limit := by
  induction data generalizing buf with
  | nil => exact ⟨buf, Takes.pure buf, by simp, hroom⟩
  | cons c data ih =>
      rw [List.length_cons] at hlen
      obtain ⟨buf₁, hwrite, hdata₁, hroom₁⟩ := hroom.writeByte (by omega) c
      have hlen₁ : buf₁.data.length + data.length ≤ limit := by
        rw [hdata₁, List.length_append, List.length_singleton]
        omega
      obtain ⟨buf', htakes, hdata, hroom'⟩ := ih hroom₁ hlen₁
      refine ⟨buf', ?_, by rw [hdata, hdata₁, List.append_assoc]; rfl, hroom'⟩
      rw [List.length_cons, lengthLoop]
      refine (takes_getc c).bind ?_
      simpa [hwrite] using htakes

theorem takes_expectByte (c : UInt8) : Takes source (expectByte c) [c] () := by
  have hexpect : expectByte c =
      (Reader.orReject getc >>= fun b => if b = c then pure () else Reader.reject) := by
    rw [expectByte, Reader.bind_orReject]
    congr 1
    funext r
    cases r with
    | none => rfl
    | some b => simp
  rw [hexpect]
  exact (takes_getc c).bind (by simpa using Takes.pure ())

/-- A chunk as it is written: the text of its size line, and its bytes. -/
structure Chunk where
  size : Bytes
  data : Bytes

/-- The bytes of a chunk. -/
def Chunk.wire (c : Chunk) : Bytes := Line.wire ⟨c.size, false⟩ ++ (c.data ++ crlf)

/-- A chunk that is not empty, with a size line that fits. -/
structure Chunk.Valid (c : Chunk) : Prop where
  size : IsChunkSize c.data.length c.size
  fits : FitsLine ⟨c.size, false⟩
  ne_nil : c.data ≠ []

/-- A chunked body: its chunks, the text of the last size line, and the trailers. -/
structure ChunkedBody where
  chunks : List Chunk
  last : Bytes
  trailers : List Line

/-- The bytes the chunks carry. -/
def ChunkedBody.data (b : ChunkedBody) : Bytes := b.chunks.flatMap Chunk.data

/-- The end of a chunked body. -/
def ChunkedBody.tail (b : ChunkedBody) : Bytes :=
  Line.wire ⟨b.last, false⟩ ++ (b.trailers.flatMap Line.wire ++ Line.wire ⟨[], false⟩)

/-- The bytes of a chunked body. -/
def ChunkedBody.wire (b : ChunkedBody) : Bytes := b.chunks.flatMap Chunk.wire ++ b.tail

/-- A chunked body of at most 16 MiB, with at most 100 trailer lines and 64 KiB of them. -/
structure ChunkedBody.Valid (b : ChunkedBody) : Prop where
  chunks : ∀ c ∈ b.chunks, c.Valid
  data_le : b.data.length ≤ httpMaxBody
  last : IsChunkSize 0 b.last
  last_fits : FitsLine ⟨b.last, false⟩
  trailers : IsBlock true httpMaxHeaderCount 0 b.trailers

/-- A chunk size is read when it is within the cap. -/
theorem parseChunkSize_of_le {n : ℕ} {text : Bytes} (h : IsChunkSize n text) (hn : n ≤ httpMaxBody) :
    parseChunkSize text = some n := by
  rw [parseChunkSize_eq h, if_pos]
  exact hn.trans (by decide)

theorem ends_in_crlf (text : Bytes) : ¬(Line.wire ⟨text, false⟩).length - text.length ≠ 2 := by
  simp [length_wire]

/-- One round of the chunk loop takes a chunk. -/
theorem chunkLoop_round {c : Chunk} (hc : c.Valid) {total : ℕ} {buf : ByteBuffer}
    (hroom : buf.Room httpMaxBody) (htotal : buf.data.length = total)
    (hle : total + c.data.length ≤ httpMaxBody) :
    ∃ buf' : ByteBuffer, buf'.data = buf.data ++ c.data ∧ buf'.Room httpMaxBody ∧
      ∀ fuel, Leads source (chunkLoop (fuel + 1) total buf) c.wire
        (chunkLoop fuel (total + c.data.length) buf') := by
  have hpos : 0 < c.data.length := List.length_pos_iff.mpr hc.ne_nil
  obtain ⟨buf', htakes, hdata, hroom'⟩ := takes_lengthLoop c.data hroom (by omega)
  refine ⟨buf', hdata, hroom', fun fuel => ?_⟩
  rw [chunkLoop]
  refine ((takes_readLine hc.fits).leads _).trans ?_
  rw [if_neg (ends_in_crlf c.size)]
  simp only [parseChunkSize_of_le hc.size (by omega)]
  rw [if_neg (by omega), if_neg (by omega)]
  refine (htakes.leads _).trans ?_
  exact ((takes_expectByte cr).leads _).trans ((takes_expectByte lf).leads _)

/-- The chunk loop after some chunks. -/
theorem chunkLoop_chunks {chunks : List Chunk} (hchunks : ∀ c ∈ chunks, c.Valid) {total : ℕ}
    {buf : ByteBuffer} (hroom : buf.Room httpMaxBody) (htotal : buf.data.length = total)
    (hle : total + (chunks.flatMap Chunk.data).length ≤ httpMaxBody) (fuel : ℕ) :
    ∃ buf' : ByteBuffer, buf'.data = buf.data ++ chunks.flatMap Chunk.data ∧
      Leads source (chunkLoop (fuel + chunks.length) total buf) (chunks.flatMap Chunk.wire)
        (chunkLoop fuel (total + (chunks.flatMap Chunk.data).length) buf') := by
  induction chunks generalizing total buf with
  | nil => exact ⟨buf, by simp, Leads.refl _⟩
  | cons c chunks ih =>
      obtain ⟨hc, hchunks⟩ := List.forall_mem_cons.mp hchunks
      rw [List.flatMap_cons, List.length_append] at hle
      obtain ⟨buf₁, hdata₁, hroom₁, hlead⟩ := chunkLoop_round hc hroom htotal (by omega)
      have htotal₁ : buf₁.data.length = total + c.data.length := by
        rw [hdata₁, List.length_append, htotal]
      obtain ⟨buf', hdata, hlead'⟩ := ih hchunks hroom₁ htotal₁ (by omega)
      refine ⟨buf', by rw [hdata, hdata₁, List.append_assoc, List.flatMap_cons], ?_⟩
      rw [List.length_cons, ← Nat.add_assoc, List.flatMap_cons, List.flatMap_cons,
        List.length_append, ← Nat.add_assoc]
      exact (hlead _).trans hlead'

theorem length_le_flatMap_data {chunks : List Chunk} (hchunks : ∀ c ∈ chunks, c.Valid) :
    chunks.length ≤ (chunks.flatMap Chunk.data).length := by
  rw [List.length_flatMap]
  refine le_of_eq_of_le (List.length_map _).symm (List.length_le_sum_of_one_le _ ?_)
  simpa [Nat.one_le_iff_ne_zero] using fun c hc => (hchunks c hc).ne_nil

/-- The last size line, the trailers and the empty line end the loop. -/
theorem takes_chunkLoop_tail {b : ChunkedBody} (h : b.Valid) (fuel total : ℕ) (buf : ByteBuffer) :
    Takes source (chunkLoop (fuel + 1) total buf) b.tail buf := by
  rw [chunkLoop]
  refine (takes_readLine h.last_fits).bind ?_
  rw [if_neg (ends_in_crlf b.last)]
  simp only [parseChunkSize_of_le h.last (Nat.zero_le _), if_true]
  rw [← List.append_nil (_ ++ Line.wire ⟨[], false⟩)]
  exact (takes_skip h.trailers fun _ => rfl).bind (Takes.pure buf)

/-- The loop is not out of rounds after chunks within the cap. -/
theorem chunkLoop_start {chunks : List Chunk} (hchunks : ∀ c ∈ chunks, c.Valid)
    (hle : (chunks.flatMap Chunk.data).length ≤ httpMaxBody) {buf : ByteBuffer}
    (hroom : buf.Room httpMaxBody) (hempty : buf.data = []) :
    ∃ (fuel : ℕ) (buf' : ByteBuffer), buf'.data = chunks.flatMap Chunk.data ∧
      Leads source (chunkLoop (httpMaxBody + 1) 0 buf) (chunks.flatMap Chunk.wire)
        (chunkLoop (fuel + 1) (chunks.flatMap Chunk.data).length buf') := by
  have hcount := length_le_flatMap_data hchunks
  obtain ⟨fuel, hfuel⟩ : ∃ fuel, httpMaxBody + 1 = fuel + 1 + chunks.length :=
    ⟨httpMaxBody - chunks.length, by omega⟩
  have hzero : buf.data.length = 0 := by rw [hempty, List.length_nil]
  obtain ⟨buf', hdata, hlead⟩ :=
    chunkLoop_chunks hchunks hroom hzero (by rwa [Nat.zero_add]) (fuel + 1)
  rw [hempty, List.nil_append] at hdata
  rw [Nat.zero_add] at hlead
  exact ⟨fuel, buf', hdata, hfuel ▸ hlead⟩

/-- The chunk loop takes a chunked body. -/
theorem takes_chunkLoop {b : ChunkedBody} (h : b.Valid) {buf : ByteBuffer}
    (hroom : buf.Room httpMaxBody) (hempty : buf.data = []) :
    ∃ buf' : ByteBuffer, Takes source (chunkLoop (httpMaxBody + 1) 0 buf) b.wire buf' ∧
      buf'.data = b.data := by
  obtain ⟨fuel, buf', hdata, hlead⟩ := chunkLoop_start h.chunks h.data_le hroom hempty
  exact ⟨buf', hlead.trans (takes_chunkLoop_tail h fuel _ buf'), hdata⟩

/-- The chunk loop refuses a chunk that would pass the cap, whatever comes with it. -/
theorem refuses_chunkLoop {chunks : List Chunk} (hchunks : ∀ c ∈ chunks, c.Valid)
    (hle : (chunks.flatMap Chunk.data).length ≤ httpMaxBody) {n : ℕ} {size : Bytes}
    (hsize : IsChunkSize n size) (hfits : FitsLine ⟨size, false⟩)
    (hn : httpMaxBody < (chunks.flatMap Chunk.data).length + n) {buf : ByteBuffer}
    (hroom : buf.Room httpMaxBody) (hempty : buf.data = []) :
    Refuses source (chunkLoop (httpMaxBody + 1) 0 buf)
      (chunks.flatMap Chunk.wire ++ Line.wire ⟨size, false⟩) := by
  obtain ⟨fuel, buf', -, hlead⟩ := chunkLoop_start hchunks hle hroom hempty
  refine hlead.refuses ?_
  rw [chunkLoop, ← List.append_nil (Line.wire ⟨size, false⟩)]
  refine (takes_readLine hfits).bind_refuses ?_
  rw [if_neg (ends_in_crlf size), parseChunkSize_eq hsize]
  by_cases hmax : n ≤ sizeMax
  · simp only [if_pos hmax]
    rw [if_neg (by omega), if_pos (by omega)]
    exact refuses_reject
  · simp only [if_neg hmax]
    exact refuses_reject

/-! ### Heads -/

/-- An interim response as it is written. `bare` says whether its empty line ends in LF alone. -/
structure Interim where
  status : ℕ
  line : Line
  headers : List Line
  bare : Bool

/-- The bytes of an interim response. -/
def Interim.wire (i : Interim) : Bytes :=
  i.line.wire ++ (i.headers.flatMap Line.wire ++ Line.wire ⟨[], i.bare⟩)

/-- An interim response that is skipped. -/
structure Interim.Valid (i : Interim) : Prop where
  status : 100 ≤ i.status ∧ i.status < 200 ∧ i.status ≠ 101
  line : IsStatusLine i.status i.line.text
  fits : FitsLine i.line
  headers : IsBlock false httpMaxHeaderCount 0 i.headers

/-- The head of a response as it is written, after its interim responses. -/
structure ResponseHead where
  interims : List Interim
  status : ℕ
  line : Line
  fields : List Line
  bare : Bool

namespace ResponseHead

/-- The fields and the empty line. -/
def block (h : ResponseHead) : Bytes := h.fields.flatMap Line.wire ++ Line.wire ⟨[], h.bare⟩

/-- The bytes of a head. -/
def wire (h : ResponseHead) : Bytes := h.interims.flatMap Interim.wire ++ h.line.wire ++ h.block

/-- A final status, and no more lines and bytes than the caps allow. -/
structure Valid (h : ResponseHead) : Prop where
  interims : ∀ i ∈ h.interims, i.Valid
  interims_le : h.interims.length ≤ httpMaxInformational
  status : 200 ≤ h.status ∧ h.status < 1000
  line : IsStatusLine h.status h.line.text
  fits : FitsLine h.line
  fields : IsBlock false httpMaxHeaderCount 0 h.fields

/-- The values of the fields of a name. -/
def values (h : ResponseHead) (name : Bytes) : List Bytes := valuesOf name (h.fields.map Line.text)

end ResponseHead

/-- The status loop, from the first line on, takes the interim responses and the status line. -/
theorem takes_statusLoop {h : ResponseHead} (hline : IsStatusLine h.status h.line.text)
    (hfits : FitsLine h.line) (hstatus : 200 ≤ h.status ∧ h.status < 1000) {interims : List Interim}
    (hinterims : ∀ i ∈ interims, i.Valid) {left : ℕ} (hleft : interims.length ≤ left) :
    Takes source (readLine >>= fun r => statusLoop left r.line)
      (interims.flatMap Interim.wire ++ h.line.wire) (h.status : ℤ) := by
  induction interims generalizing left with
  | nil =>
      rw [← List.append_nil h.line.wire]
      refine (takes_readLine hfits).bind ?_
      rw [statusLoop.eq_def, scanStatus_eq hline hstatus.2]
      simp only
      rw [if_neg (by omega), if_neg (by omega), if_neg (by omega)]
      exact Takes.pure _
  | cons i interims ih =>
      obtain ⟨hi, hinterims⟩ := List.forall_mem_cons.mp hinterims
      obtain ⟨left, rfl⟩ : ∃ n, left = n + 1 := ⟨left - 1, by simp at hleft; omega⟩
      rw [List.flatMap_cons, Interim.wire, List.append_assoc, List.append_assoc]
      refine (takes_readLine hi.fits).bind ?_
      have hlt := hi.status
      rw [statusLoop, scanStatus_eq hi.line (by omega)]
      simp only
      rw [if_neg (by omega), if_neg (by omega), if_pos (by omega)]
      refine (takes_skip hi.headers (by simp)).bind ?_
      exact ih hinterims (by simpa using hleft)

/-- The parser after the final status line. -/
def parseFinal (requestMethod : Option Bytes) (status : ℤ) :
    Reader HttpTransport HttpClientResponse := do
  let head ← headerLoop false headerStep httpMaxHeaderCount 0 Head.new
  let body ← if hasBody requestMethod status then readBody head else pure []
  pure ⟨status, head.headers, head.cookies, body⟩

theorem parseWithOptions_none (requestMethod : Option Bytes) :
    parseWithOptions none requestMethod =
      (readLine >>= fun r => statusLoop httpMaxInformational r.line) >>= parseFinal requestMethod := by
  have hfirst : firstLine none = readLine >>= fun r => pure r.line := rfl
  rw [parseWithOptions, hfirst, Reader.bind_bind, Reader.bind_bind]
  rfl

section Parse

variable {h : ResponseHead} {requestMethod : Option Bytes} {wire : Bytes}

/-- The parser takes the interim responses and the status line. -/
theorem parse_leads (hv : h.Valid) (requestMethod : Option Bytes) :
    Leads source (parseWithOptions none requestMethod)
      (h.interims.flatMap Interim.wire ++ h.line.wire) (parseFinal requestMethod h.status) := by
  rw [parseWithOptions_none]
  exact (takes_statusLoop hv.line hv.fits hv.status hv.interims hv.interims_le).leads _

/-- What a head says of its lengths, each read as a number: `none` when one of them is none. -/
def ResponseHead.lengths (h : ResponseHead) : Option (List ℕ) :=
  (h.values contentLengthName).mapM (parseContentLength · sizeMax)

/-- A response is taken when its body is. -/
theorem takes_parse (hv : h.Valid) (hhas : hasBody requestMethod h.status = true) {ns : List ℕ}
    (hns : h.lengths = some ns) {body : Bytes}
    (hbody : ∀ st, Tracks st ns (h.values transferEncodingName) →
      Takes source (readBody st) wire body) :
    ∃ res, Takes source (parseWithOptions none requestMethod) (h.wire ++ wire) res ∧
      res.statusCode = h.status ∧ res.body = body := by
  obtain ⟨st, hfold, htracks⟩ := (foldlM_headerStep tracks_new _).2 ns hns
  refine ⟨⟨h.status, st.headers, st.cookies, body⟩, ?_, rfl, rfl⟩
  rw [ResponseHead.wire, List.append_assoc]
  refine (parse_leads hv requestMethod).trans ?_
  rw [parseFinal]
  refine (takes_headerLoop hv.fields (by simp) hfold).bind ?_
  rw [if_pos hhas, ← List.append_nil wire]
  exact (hbody st htracks).bind (Takes.pure _)

/-- A response is refused when a length cannot be read or its body is refused. -/
theorem refuses_parse (hv : h.Valid) (hhas : hasBody requestMethod h.status = true)
    (hbody : ∀ st ns, h.lengths = some ns → Tracks st ns (h.values transferEncodingName) →
      Refuses source (readBody st) wire) :
    Refuses source (parseWithOptions none requestMethod) (h.wire ++ wire) := by
  rw [ResponseHead.wire, List.append_assoc]
  refine (parse_leads hv requestMethod).refuses ?_
  rw [parseFinal]
  cases hns : h.lengths with
  | none =>
      rw [ResponseHead.block, List.append_assoc]
      have hfold := (foldlM_headerStep tracks_new (h.fields.map Line.text)).1 hns
      exact ((refuses_headerLoop hv.fields hfold).bind).append _
  | some ns =>
      obtain ⟨st, hfold, htracks⟩ := (foldlM_headerStep tracks_new _).2 ns hns
      refine (takes_headerLoop hv.fields (by simp) hfold).bind_refuses ?_
      rw [if_pos hhas]
      exact (hbody st ns hns htracks).bind

end Parse

/-! ### Responses -/

variable {st : Head} {ns : List ℕ} {encodings : List Bytes}

theorem room_new {limit : ℕ} (hlimit : limit ≤ httpMaxBody) {cap : ℕ} (hcap : cap ≠ 0)
    (hroom : limit ≤ cap ∨ ∃ k ≤ 24, cap = 2 ^ k) : (ByteBuffer.new cap).Room limit where
  readPos_eq := rfl
  limit_le := hlimit
  grows := by simpa [ByteBuffer.new, hcap] using hroom

/-- A head with a transfer encoding `chunked` and no length leads to the chunk loop. -/
theorem readBody_of_chunked (h : Tracks st [] encodings)
    (hchunked : ∃ v ∈ encodings, hasName chunkedName (v.dropWhile isspace) = true) :
    ∃ buf : ByteBuffer, buf.Room httpMaxBody ∧ buf.data = [] ∧
      readBody st = chunkLoop (httpMaxBody + 1) 0 buf >>= fun buf => pure buf.data := by
  have hcl : st.hasContentLength = false := h.hasContentLength
  have hconflict : st.contentLengthConflict = false := h.conflict
  have hch : st.isChunked = true := by
    rw [h.isChunked, List.any_eq_true]
    exact hchunked
  refine ⟨ByteBuffer.new st.initialCap, ?_, rfl, ?_⟩
  · have hcap : st.initialCap = 2 ^ 14 := by simp [Head.initialCap, hcl, httpInitialBodyCap]
    rw [hcap]
    exact room_new le_rfl (by decide) (.inr ⟨14, by decide, rfl⟩)
  · simp [readBody, hcl, hconflict, hch]

/-- A head with one length, however often, leads to the loop for it. -/
theorem takes_readBody_of_length {n : ℕ} (h : Tracks st ns []) (hne : ns ≠ []) (hns : ∀ m ∈ ns, m = n)
    (hn : n ≤ httpMaxBody) {body : Bytes} (hbody : body.length = n) :
    Takes source (readBody st) body body := by
  obtain ⟨m, ms, rfl⟩ := List.exists_cons_of_ne_nil hne
  obtain rfl : m = n := hns m (by simp)
  have hcl : st.hasContentLength = true := h.hasContentLength
  have hlength : st.contentLength = m := h.contentLength
  have hconflict : st.contentLengthConflict = false := by
    rw [h.conflict]
    simpa using hns
  have hexceeds : st.contentLengthExceedsBodyCap = false := by
    rw [h.exceeds, List.any_eq_false]
    intro k hk
    simpa [hns k hk] using hn
  have hte : st.hasTransferEncoding = false := h.hasTransferEncoding
  have hch : st.isChunked = false := h.isChunked
  have hroom : (ByteBuffer.new st.initialCap).Room m := by
    simp only [Head.initialCap, hcl, hlength, if_true]
    split_ifs with hpos hsmall
    · exact room_new hn (by omega) (.inl le_rfl)
    · exact room_new hn (by decide) (.inr ⟨14, by decide, rfl⟩)
    · exact room_new hn (by decide) (.inl (by omega))
  obtain ⟨buf, htakes, hdata, -⟩ := takes_lengthLoop body hroom (by simp [ByteBuffer.new, hbody])
  rw [hbody] at htakes
  have hread : readBody st =
      lengthLoop m (ByteBuffer.new st.initialCap) >>= fun buf => pure buf.data := by
    simp [readBody, hcl, hconflict, hexceeds, hte, hch, hlength]
  have hbuf : buf.data = body := by rw [hdata]; rfl
  rw [hread, ← List.append_nil body]
  exact htakes.bind (by simpa [hbuf] using Takes.pure (S := source) body)

theorem refuses_readBody (h : Tracks st ns encodings)
    (hbad : (ns ≠ [] ∧ encodings ≠ []) ∨ (∃ m ∈ ns, ∃ n ∈ ns, m ≠ n) ∨ ∃ n ∈ ns, httpMaxBody < n) :
    Refuses source (readBody st) [] := by
  have hreject : readBody st = Reader.reject := by
    rcases hbad with ⟨hns, henc⟩ | ⟨m, hm, n, hn, hne⟩ | ⟨n, hn, hmax⟩
    · have hcl : st.hasContentLength = true := by simp [h.hasContentLength, hns]
      have hte : st.hasTransferEncoding = true := by simp [h.hasTransferEncoding, henc]
      simp [readBody, hcl, hte]
    · have hconflict : st.contentLengthConflict = true := by
        rw [h.conflict, List.any_eq_true]
        by_cases hhead : m = ns.headD 0
        · exact ⟨n, hn, by rw [← hhead]; simpa using hne.symm⟩
        · exact ⟨m, hm, by simpa using hhead⟩
      simp [readBody, hconflict]
    · have hcl : st.hasContentLength = true := by
        simp [h.hasContentLength, List.ne_nil_of_mem hn]
      have hexceeds : st.contentLengthExceedsBodyCap = true := by
        rw [h.exceeds, List.any_eq_true]
        exact ⟨n, hn, by simpa using hmax⟩
      simp [readBody, hcl, hexceeds]
  rw [hreject]
  exact refuses_reject

theorem exists_of_mapM {α β : Type} {f : α → Option β} {xs : List α} {ys : List β}
    (h : xs.mapM f = some ys) {x : α} (hx : x ∈ xs) : ∃ y ∈ ys, f x = some y := by
  induction xs generalizing ys with
  | nil => simp at hx
  | cons a xs ih =>
      rw [List.mapM_cons] at h
      obtain ⟨z, hz, h⟩ := Option.bind_eq_some_iff.mp h
      obtain ⟨zs, hzs, h⟩ := Option.bind_eq_some_iff.mp h
      obtain rfl : z :: zs = ys := by simpa using h
      rcases List.mem_cons.mp hx with rfl | hx
      · exact ⟨z, List.mem_cons_self, hz⟩
      · obtain ⟨y, hy, hf⟩ := ih hzs hx
        exact ⟨y, List.mem_cons_of_mem _ hy, hf⟩

/-- A length that was read is one of the lengths. -/
theorem mem_lengths {h : ResponseHead} (hns : h.lengths = some ns) {v : Bytes} {n : ℕ}
    (hv : v ∈ h.values contentLengthName) (hn : IsLength n v) : n ∈ ns := by
  obtain ⟨m, hm, hparse⟩ := exists_of_mapM hns hv
  rw [parseContentLength_eq hn] at hparse
  split_ifs at hparse
  obtain rfl : n = m := by simpa using hparse
  exact hm

/-- Lengths that all say `n`. -/
theorem lengths_eq {h : ResponseHead} {n : ℕ} (hn : n ≤ httpMaxBody)
    (hall : ∀ v ∈ h.values contentLengthName, IsLength n v) :
    h.lengths = some ((h.values contentLengthName).map fun _ => n) := by
  rw [ResponseHead.lengths]
  revert hall
  generalize h.values contentLengthName = values
  intro hall
  induction values with
  | nil => rfl
  | cons v vs ih =>
      obtain ⟨hv, hall⟩ := List.forall_mem_cons.mp hall
      rw [List.mapM_cons, parseContentLength_eq hv, if_pos (hn.trans (by decide)), ih hall]
      rfl

/-- `strcasestr` finds a word in a text without NUL. -/
theorem hasName_of_infix {name v : Bytes} (hname : name ≠ []) (hv : 0 ∉ v)
    (h : name <:+: v.map tolower) : hasName name v = true := by
  have hex : ∃ i, name <+: (v.map tolower).drop i := by
    obtain ⟨s, t, hst⟩ := h
    refine ⟨s.length, t, ?_⟩
    rw [← hst, List.append_assoc, List.drop_left]
  have hfind : strstr name (v.map tolower) = some (Nat.find hex) := by
    rw [strstr_eq_some_iff hname]
    refine ⟨Nat.find_spec hex, fun j hj => Nat.find_min hex hj, fun c hc => ?_⟩
    rintro rfl
    exact zero_notMem_map_tolower hv (List.mem_of_mem_take hc)
  rw [hasName, hfind]
  rfl

theorem zero_notMem_values {h : ResponseHead} (hv : h.Valid) {name v : Bytes}
    (hmem : v ∈ h.values name) : 0 ∉ v := by
  intro hzero
  simp only [ResponseHead.values, valuesOf, List.mem_map, List.mem_filter, List.mem_filterMap] at hmem
  obtain ⟨⟨key, value⟩, ⟨⟨text, ⟨l, hl, rfl⟩, hsplit⟩, -⟩, rfl⟩ := hmem
  obtain ⟨colon, -, hfield⟩ := Option.map_eq_some_iff.mp hsplit
  obtain ⟨-, rfl⟩ : _ ∧ l.text.drop (colon + 1) = value := by simpa using hfield
  exact ((hv.fields.fits l hl).1 0 (List.mem_of_mem_drop hzero)).1 rfl

/-- A value that names the coding is one for which the header loop sets `is_chunked`. -/
theorem chunked_of_values {h : ResponseHead} (hv : h.Valid)
    (hchunked : ∃ v ∈ h.values transferEncodingName,
      chunkedName <:+: (v.dropWhile isspace).map tolower) :
    ∃ v ∈ h.values transferEncodingName, hasName chunkedName (v.dropWhile isspace) = true := by
  obtain ⟨v, hmem, hinfix⟩ := hchunked
  refine ⟨v, hmem, hasName_of_infix (by decide) (fun h0 => ?_) hinfix⟩
  exact zero_notMem_values hv hmem ((List.dropWhile_sublist _).mem h0)

/-- **Framing.** For a response that has a body, whatever comes after it: a chunked body is taken up to
its last CRLF and is the concatenation of its chunks, and a body of a given length is the next bytes;
where the stream ends early, the parser rejects. It rejects lengths that differ, a length next to a
transfer encoding, a length above the cap, and a chunk that would pass the cap. -/
theorem response_framing {h : ResponseHead} (hv : h.Valid) {requestMethod : Option Bytes}
    (hhas : hasBody requestMethod h.status = true) :
    (∀ b : ChunkedBody, b.Valid → h.values contentLengthName = [] →
      (∃ v ∈ h.values transferEncodingName,
        chunkedName <:+: (v.dropWhile isspace).map tolower) →
      ∃ res, Takes source (parseWithOptions none requestMethod) (h.wire ++ b.wire) res ∧
        res.statusCode = h.status ∧ res.body = b.data) ∧
    (∀ body : Bytes, body.length ≤ httpMaxBody → h.values transferEncodingName = [] →
      h.values contentLengthName ≠ [] →
      (∀ v ∈ h.values contentLengthName, IsLength body.length v) →
      ∃ res, Takes source (parseWithOptions none requestMethod) (h.wire ++ body) res ∧
        res.statusCode = h.status ∧ res.body = body) ∧
    ((∃ v ∈ h.values contentLengthName, ∃ w ∈ h.values contentLengthName, ∃ m n,
        IsLength m v ∧ IsLength n w ∧ m ≠ n) →
      Refuses source (parseWithOptions none requestMethod) h.wire) ∧
    (h.values contentLengthName ≠ [] → h.values transferEncodingName ≠ [] →
      Refuses source (parseWithOptions none requestMethod) h.wire) ∧
    ((∃ v ∈ h.values contentLengthName, ∃ n, IsLength n v ∧ httpMaxBody < n) →
      Refuses source (parseWithOptions none requestMethod) h.wire) ∧
    ∀ (chunks : List Chunk) (n : ℕ) (size : Bytes), h.values contentLengthName = [] →
      (∃ v ∈ h.values transferEncodingName,
        chunkedName <:+: (v.dropWhile isspace).map tolower) →
      (∀ c ∈ chunks, c.Valid) → (chunks.flatMap Chunk.data).length ≤ httpMaxBody →
      IsChunkSize n size → FitsLine ⟨size, false⟩ →
      httpMaxBody < (chunks.flatMap Chunk.data).length + n →
      Refuses source (parseWithOptions none requestMethod)
        (h.wire ++ (chunks.flatMap Chunk.wire ++ Line.wire ⟨size, false⟩)) := by
  -- without a length there is nothing to read
  have hnone : h.values contentLengthName = [] → h.lengths = some [] := by
    intro hvalues
    rw [ResponseHead.lengths, hvalues]
    rfl
  have hrefuse : (∀ ns, h.lengths = some ns →
      (ns ≠ [] ∧ h.values transferEncodingName ≠ []) ∨ (∃ m ∈ ns, ∃ n ∈ ns, m ≠ n) ∨
        ∃ n ∈ ns, httpMaxBody < n) →
      Refuses source (parseWithOptions none requestMethod) h.wire := by
    intro hbad
    rw [← List.append_nil h.wire]
    exact refuses_parse hv hhas fun st ns hns htracks => refuses_readBody htracks (hbad ns hns)
  refine ⟨?_, ?_, ?_, ?_, ?_, ?_⟩
  · intro b hb hvalues hchunked
    refine takes_parse hv hhas (hnone hvalues) fun st htracks => ?_
    obtain ⟨buf, hroom, hempty, hread⟩ := readBody_of_chunked htracks (chunked_of_values hv hchunked)
    obtain ⟨buf', htakes, hdata⟩ := takes_chunkLoop hb hroom hempty
    rw [hread, ← List.append_nil b.wire, ← hdata]
    exact htakes.bind (Takes.pure _)
  · intro body hle hte hne hall
    refine takes_parse hv hhas (lengths_eq hle hall) fun st htracks => ?_
    rw [hte] at htracks
    exact takes_readBody_of_length htracks (by simpa using hne) (by simp) hle rfl
  · rintro ⟨v, hvm, w, hwm, m, n, hm, hn, hne⟩
    refine hrefuse fun ns hns => .inr (.inl ?_)
    exact ⟨m, mem_lengths hns hvm hm, n, mem_lengths hns hwm hn, hne⟩
  · intro hcl hte
    obtain ⟨v, hvm⟩ := List.exists_mem_of_ne_nil _ hcl
    refine hrefuse fun ns hns => .inl ⟨?_, hte⟩
    obtain ⟨n, hn, -⟩ := exists_of_mapM hns hvm
    exact List.ne_nil_of_mem hn
  · rintro ⟨v, hvm, n, hn, hmax⟩
    exact hrefuse fun ns hns => .inr (.inr ⟨n, mem_lengths hns hvm hn, hmax⟩)
  · intro chunks n size hvalues hchunked hchunks hle hsize hfits hn
    refine refuses_parse hv hhas fun st ns hns htracks => ?_
    obtain rfl : [] = ns := by simpa [hnone hvalues] using hns
    obtain ⟨buf, hroom, hempty, hread⟩ := readBody_of_chunked htracks (chunked_of_values hv hchunked)
    rw [hread]
    exact (refuses_chunkLoop hchunks hle hsize hfits hn hroom hempty).bind

/-- `HTTP/1.1 200 OK` with a transfer encoding. -/
def sampleHead : ResponseHead where
  interims := []
  status := 200
  line := ⟨ascii ['H', 'T', 'T', 'P', '/', '1', '.', '1', ' ', '2', '0', '0', ' ', 'O', 'K'], false⟩
  fields := [⟨ascii ['T', 'r', 'a', 'n', 's', 'f', 'e', 'r', '-', 'E', 'n', 'c', 'o', 'd', 'i', 'n',
    'g', ':', ' ', 'C', 'h', 'u', 'n', 'k', 'e', 'd'], false⟩]
  bare := false

theorem fitsLine_of_all {l : Line} (htext : (l.text.all fun c => c ≠ 0 && c ≠ cr && c ≠ lf) = true)
    (hlen : l.wire.length < lineSize) : FitsLine l := by
  refine ⟨fun c hc => ?_, hlen⟩
  simpa [and_assoc] using List.all_eq_true.mp htext c hc

theorem sampleHead_valid : sampleHead.Valid where
  interims := by simp [sampleHead]
  interims_le := by decide
  status := by decide
  line := ⟨ascii ['1'], ascii [' ', 'O', 'K'], by decide, by decide,
    List.forall_mem_singleton.mpr (by decide), by rintro c ⟨⟩; decide⟩
  fits := fitsLine_of_all (by decide) (by decide)
  fields :=
    { fits := List.forall_mem_singleton.mpr (fitsLine_of_all (by decide) (by decide))
      ne_nil := by decide
      ends := by decide
      count_le := by decide
      bytes_le := by decide }

theorem sampleHead_chunked : ∃ v ∈ sampleHead.values transferEncodingName,
    chunkedName <:+: (v.dropWhile isspace).map tolower :=
  ⟨ascii [' ', 'C', 'h', 'u', 'n', 'k', 'e', 'd'], by decide, [], [], by decide⟩

/-- The body `abc` in one chunk with the given size line. -/
def sampleBody (size : Bytes) : ChunkedBody where
  chunks := [⟨size, ascii ['a', 'b', 'c']⟩]
  last := ascii ['0']
  trailers := []

theorem isChunkSize_zero : IsChunkSize 0 (ascii ['0']) :=
  ⟨ascii ['0'], [], rfl, by decide, List.forall_mem_singleton.mpr (by decide),
    ⟨[], [], rfl, by simp, by simp⟩, rfl⟩

/-- A size line that says 3, with an extension. -/
theorem isChunkSize_three (ext : Bytes) : IsChunkSize 3 (0x33 :: 0x3B :: ext) :=
  ⟨[0x33], 0x3B :: ext, rfl, by decide, List.forall_mem_singleton.mpr (by decide),
    ⟨[], 0x3B :: ext, rfl, by simp, by simp⟩, rfl⟩

theorem sampleBody_valid : (sampleBody (ascii ['3', ';', 'x'])).Valid where
  chunks := by
    simp only [sampleBody, List.mem_singleton, forall_eq]
    exact ⟨isChunkSize_three [0x78], fitsLine_of_all (by decide) (by decide), by decide⟩
  data_le := by decide
  last := isChunkSize_zero
  last_fits := fitsLine_of_all (by decide) (by decide)
  trailers := ⟨by simp [sampleBody], by simp [sampleBody], by simp [sampleBody], by decide, by decide⟩

/-- A transport that has read a response, with one more byte after it. -/
def sampleTransport : HttpTransport :=
  ⟨sampleHead.wire ++ (sampleBody (ascii ['3', ';', 'x'])).wire ++ [0x7A], .other, true, []⟩

theorem response_framing_sample : ∃ res t, parseWithOptions none none sampleTransport = .got res t ∧
    res.body = ascii ['a', 'b', 'c'] ∧ source.stream t = [0x7A] := by
  obtain ⟨res, htakes, -, hbody⟩ := (@response_framing _ sampleHead_valid none (by decide)).1
    _ sampleBody_valid (by decide) sampleHead_chunked
  have hstream : source.stream sampleTransport =
      sampleHead.wire ++ (sampleBody (ascii ['3', ';', 'x'])).wire ++ [0x7A] := by
    simp [source, sampleTransport, arriving]
  obtain ⟨t, hparse, hrest, -⟩ := htakes.whole hstream
  exact ⟨res, t, hparse, hbody, hrest⟩

/-- A chunk extension that does not fit the line buffer. -/
def longSize : Bytes := 0x33 :: 0x3B :: List.replicate 4096 0x78

theorem isText_longSize : IsText longSize := by
  intro c hc
  simp only [longSize, List.mem_cons, List.mem_replicate] at hc
  obtain rfl | rfl | ⟨-, rfl⟩ := hc <;> decide

/-- The chunk `abc` with a long extension is a chunk of three bytes, and the parser rejects it. -/
theorem response_long_extension :
    IsChunkSize (ascii ['a', 'b', 'c']).length longSize ∧
      parseWithOptions none none ⟨sampleHead.wire ++ (sampleBody longSize).wire, .other, true, [.eof]⟩ =
        .rejected := by
  refine ⟨isChunkSize_three _, ?_⟩
  have hlong : lineSize ≤ longSize.length + 1 := by
    rw [longSize, List.length_cons, List.length_cons, List.length_replicate]
    decide
  have hvalues : sampleHead.values contentLengthName = [] := by decide
  have hrefuse : Refuses source (parseWithOptions none none) (sampleHead.wire ++ longSize) := by
    refine refuses_parse sampleHead_valid (by decide) fun st ns hns htracks => ?_
    obtain rfl : [] = ns := by simpa [ResponseHead.lengths, hvalues] using hns
    obtain ⟨buf, -, -, hread⟩ := readBody_of_chunked htracks
      (chunked_of_values sampleHead_valid sampleHead_chunked)
    rw [hread, chunkLoop]
    exact (refuses_recvLine isText_longSize hlong).bind.bind
  refine hrefuse _ (crlf ++ ascii ['a', 'b', 'c'] ++ crlf ++ (sampleBody longSize).tail) ?_
  simp [source, arriving, ChunkedBody.wire, sampleBody, Chunk.wire, Line.wire]

end HttpResponseParser
