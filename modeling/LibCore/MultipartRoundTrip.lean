import LibCore.Multipart

/-!
# The Way of a Multipart Body

What `Multipart_parse` makes of a body that `process_multipart` has written. The body is a first
delimiter, and behind it part after part, each in front of the next delimiter. In a part, the header has
lines without a line end, the first empty line ends it, and the delimiter of the next part is the first
one behind it.

## Main results

* `parseLoop_tailText`: the loop of the parser hands every part to `process_part`.
* `processPart_fieldPart`, `processPart_filePart`: which stores what the writer was given.
* `multipart_round_trip`: so that the same fields and files come out.
-/

open CString Search

namespace Multipart

/-! ### Delimiters -/

/-- A part: a header, an empty line and a payload. -/
def partText (header payload : Bytes) : Bytes := header ++ (crlf ++ (crlf ++ payload))

/-- The body behind a delimiter. -/
def tailText (boundary : Bytes) : List Bytes → Bytes
  | [] => 0x2D :: 0x2D :: crlf
  | part :: parts => crlf ++ (part ++ (crlfDelim boundary ++ tailText boundary parts))

/-- A part that is not empty, and in which no delimiter starts. -/
def Separable (boundary part : Bytes) : Prop :=
  part ≠ [] ∧ ∀ rest, memmem (crlfDelim boundary) (part ++ (crlfDelim boundary ++ rest)) = some part.length

theorem delimOf_ne_nil (boundary : Bytes) (first : Bool) : delimOf boundary first ≠ [] :=
  List.length_pos_iff.mp (length_delimOf_pos boundary first)

/-- The loop hands **every part** to `process_part`. -/
theorem parseLoop_tailText {boundary : Bytes} {parts : List Bytes}
    (hparts : ∀ part ∈ parts, Separable boundary part) (first : Bool) (mp : MultipartResult) :
    parseLoop boundary first mp (delimOf boundary first ++ tailText boundary parts) =
      parts.foldl processPart mp := by
  induction parts generalizing first mp with
  | nil =>
      rw [parseLoop, if_neg (by simp [delimOf_ne_nil]), memmem_of_isPrefix (List.prefix_append _ _)]
      simp only [Nat.zero_add, List.drop_left]
      rw [if_pos (by simp [tailText])]
      rfl
  | cons part parts ih =>
      obtain ⟨⟨hne, hnext⟩, hparts⟩ := List.forall_mem_cons.mp hparts
      rw [parseLoop, if_neg (by simp [delimOf_ne_nil]), memmem_of_isPrefix (List.prefix_append _ _)]
      simp only [Nat.zero_add, List.drop_left]
      rw [tailText, if_neg (by simp [crlf])]
      have hskip : skipLineEnd (crlf ++ (part ++ (crlfDelim boundary ++ tailText boundary parts))) =
          part ++ (crlfDelim boundary ++ tailText boundary parts) := by
        rw [skipLineEnd, if_pos (List.prefix_append _ _)]
        rfl
      rw [hskip, hnext]
      simp only [List.take_left, List.drop_left, List.length_pos_iff.mpr hne, if_true]
      exact ih hparts false (processPart mp part)

/-- A line in front of a text that does not go on like the needle is passed over. -/
theorem memmem_line {word line y : Bytes} (hline : 0x0D ∉ line) (hy : ¬word <+: y) :
    memmem (0x0D :: 0x0A :: word) (line ++ (crlf ++ y)) =
      (memmem (0x0D :: 0x0A :: word) y).map (line.length + 2 + ·) := by
  have hfirst : ¬0x0D :: 0x0A :: word <+: (0x0D :: 0x0A :: y : Bytes) := by
    simpa [List.cons_prefix_cons] using hy
  have hsecond : ¬0x0D :: 0x0A :: word <+: (0x0A :: y : Bytes) := by
    simp [List.cons_prefix_cons]
  rw [memmem_skip hline, crlf, List.cons_append, List.cons_append, List.nil_append,
    memmem_cons_of_not_isPrefix hfirst, memmem_cons_of_not_isPrefix hsecond, Option.map_map, Option.map_map]
  congr 1
  funext n
  simp only [Function.comp_apply]
  omega

/-- The payload behind the empty line goes up to the next delimiter. -/
theorem memmem_payload {boundary payload : Bytes} (hb : 0x0D ∉ boundary)
    (hpayload : ¬crlfDelim boundary <:+: crlf ++ payload) (rest : Bytes) :
    memmem (crlfDelim boundary) (crlf ++ (payload ++ (crlfDelim boundary ++ rest))) =
      some (payload.length + 2) := by
  have hword : 0x0D ∉ 0x0A :: 0x2D :: 0x2D :: boundary := by simpa using hb
  have hguard := memmem_guarded hword hpayload rest
  rw [List.append_assoc] at hguard
  exact hguard.trans (by simp [crlf])

/-! ### Headers -/

/-- The names of fields and files, and the names of files on the disk of the client. -/
def IsName (s : Bytes) : Prop :=
  s ≠ [] ∧ s.length < maxKeyLen ∧ ∀ c ∈ s, c ≠ 0 ∧ c ∉ [quote, 0x5C, 0x3D, 0x3A, 0x0D, 0x0A]

/-- The content types. -/
def IsContentType (s : Bytes) : Prop :=
  s ≠ [] ∧ (∀ c ∈ s, c ≠ 0 ∧ c ≠ 0x0D ∧ c ≠ 0x0A) ∧ s.head? ≠ some 0x20 ∧ s.head? ≠ some 0x09

theorem IsName.notMem {s : Bytes} (h : IsName s) {c : UInt8}
    (hc : c ∈ [quote, 0x5C, 0x3D, 0x3A, 0x0D, 0x0A]) : c ∉ s :=
  fun hmem => (h.2.2 c hmem).2 hc

theorem IsName.zero_notMem {s : Bytes} (h : IsName s) : 0 ∉ s := fun hmem => (h.2.2 0 hmem).1 rfl

theorem tolower_eq_iff {mark : UInt8} (hmark : mark = 0x3D ∨ mark = 0x3A) (x : UInt8) :
    tolower x = mark ↔ x = mark := by
  have h : ∀ x : UInt8, (tolower x = 0x3D ↔ x = 0x3D) ∧ (tolower x = 0x3A ↔ x = 0x3A) := by
    decide +kernel
  rcases hmark with rfl | rfl
  · exact (h x).1
  · exact (h x).2

/-- A quoted value is read up to its quote. -/
theorem quoted_value {key rest : Bytes} (hkey : IsName key) :
    (if (quote :: (key ++ quote :: rest)).head? = some quote then
      (quote :: (key ++ quote :: rest)).tail.takeWhile (· ≠ quote)
      else (quote :: (key ++ quote :: rest)).takeWhile fun c => c ∉ [0x3B, 0x0D, 0x0A, 0x20]) = key := by
  rw [List.head?_cons, if_pos rfl, List.tail_cons]
  refine takeWhile_append (fun x hx => ?_) (by simp)
  have hne : x ≠ quote := by
    rintro rfl
    exact hkey.notMem (by simp) hx
  simpa using hne

theorem extractParam_name {key : Bytes} (hkey : IsName key) (more : Bytes) :
    extractParam (fieldHeader key ++ more) nameText = some key := by
  have htext : fieldHeader key ++ more =
      dispositionText ++ (nameText ++ 0x3D :: (quote :: (key ++ quote :: more))) := by
    simp [fieldHeader]
  rw [extractParam, htext, behind_hit (tolower_eq_iff (.inl rfl)) (by decide) (by decide) (by decide),
    Option.bind_some]
  simp only [quoted_value hkey]
  rw [if_neg hkey.1]

/-- A field has no file name. -/
theorem extractParam_filename_field {key : Bytes} (hkey : IsName key) :
    extractParam (fieldHeader key) filenameText = none := by
  have htext : fieldHeader key =
      (dispositionText ++ nameText) ++ 0x3D :: (quote :: (key ++ [quote])) := by
    simp [fieldHeader]
  have hnone : 0x3D ∉ quote :: (key ++ [quote]) := by
    have hne := hkey.notMem (c := 0x3D) (by simp)
    simp only [List.mem_cons, List.mem_append, List.not_mem_nil, or_false, not_or]
    exact ⟨by decide, hne, by decide⟩
  rw [extractParam, htext, behind_skip (tolower_eq_iff (.inl rfl)) (by decide) (by decide) (by decide)
    (by decide), behind_none (fun x => (tolower_eq_iff (.inl rfl) x).mp) hnone]
  rfl

theorem extractParam_filename {key filename : Bytes} (hkey : IsName key) (hname : IsName filename)
    (mime : Bytes) : extractParam (fileHeader key filename mime) filenameText = some filename := by
  have htext : fileHeader key filename mime = (dispositionText ++ nameText) ++ 0x3D ::
      ((quote :: (key ++ [quote, 0x3B, 0x20])) ++ (filenameText ++ 0x3D :: (quote :: (filename ++ quote ::
        (crlf ++ (contentTypeText ++ 0x3A :: 0x20 :: mime)))))) := by
    simp [fileHeader, fieldHeader]
  have hnone : 0x3D ∉ (quote :: (key ++ [quote, 0x3B, 0x20])) ++ filenameText := by
    have hne := hkey.notMem (c := 0x3D) (by simp)
    simp only [List.cons_append, List.append_assoc, List.mem_cons, List.mem_append, not_or]
    exact ⟨by decide, hne, by decide⟩
  have hlast : (quote :: (key ++ [quote, 0x3B, 0x20])).getLast? = some 0x20 := by
    rw [← List.cons_append, List.getLast?_append]
    rfl
  rw [extractParam, htext, behind_skip (tolower_eq_iff (.inl rfl)) (by decide) (by decide) (by decide)
    (by decide), behind_hit (tolower_eq_iff (.inl rfl)) hnone (by decide) (by rw [hlast]; rfl),
    Option.bind_some]
  simp only [quoted_value hname]
  rw [if_neg hname.1]

/-- The text between the first colon of a header and the content type. -/
def untilType (key filename : Bytes) : Bytes :=
  ascii [' ', 'f', 'o', 'r', 'm', '-', 'd', 'a', 't', 'a', ';', ' '] ++ nameText ++ 0x3D :: quote ::
    (key ++ [quote, 0x3B, 0x20] ++ filenameText ++ 0x3D :: quote :: (filename ++ quote :: crlf))

theorem extractContentType_eq {key filename mime : Bytes} (hkey : IsName key) (hname : IsName filename)
    (hmime : IsContentType mime) :
    extractContentType (fileHeader key filename mime) = some mime := by
  have htext : fileHeader key filename mime = ascii ['C', 'o', 'n', 't', 'e', 'n', 't', '-', 'D', 'i', 's',
      'p', 'o', 's', 'i', 't', 'i', 'o', 'n'] ++ 0x3A :: (untilType key filename ++
        (contentTypeText ++ 0x3A :: (0x20 :: mime))) := by
    simp [fileHeader, fieldHeader, untilType, dispositionText, ascii]
    rfl
  have hnone : 0x3A ∉ untilType key filename ++ contentTypeText := by
    have hne := hkey.notMem (c := 0x3A) (by simp)
    have hne' := hname.notMem (c := 0x3A) (by simp)
    simp only [untilType, List.append_assoc, List.mem_append, List.mem_cons, not_or]
    exact ⟨by decide, by decide, ⟨by decide, by decide, hne, by decide, by decide, by decide, by decide,
      hne', by decide, by decide⟩, by decide⟩
  have hdrop : (0x20 :: mime).dropWhile (fun c => c = 0x20 || c = 0x09) = mime := by
    obtain ⟨c, mime, rfl⟩ := List.exists_cons_of_ne_nil hmime.1
    have hc : c ≠ 0x20 ∧ c ≠ 0x09 := by simpa using hmime.2.2
    simp [hc.1, hc.2]
  have htake : mime.takeWhile (fun c => c ≠ 0x0D && c ≠ 0x0A) = mime := by
    refine List.takeWhile_eq_self_iff.mpr fun c hc => ?_
    simpa using (hmime.2.1 c hc).2
  rw [extractContentType, htext, behind_skip (tolower_eq_iff (.inr rfl)) (by decide) (by decide)
    (by decide) (by decide), behind_hit (tolower_eq_iff (.inr rfl)) hnone rfl rfl, Option.bind_some]
  simp only [hdrop, htake]
  rw [if_neg hmime.1]

/-! ### Parts -/

/-- A payload that the delimiter can end. -/
def Delimits (boundary payload : Bytes) : Prop := ¬crlfDelim boundary <:+: crlf ++ payload

/-- The part of a field. -/
def fieldPart (e : Bytes × Bytes) : Bytes := partText (fieldHeader e.1) e.2

/-- The part of a file. -/
def filePart (e : Bytes × MultipartFile) : Bytes :=
  partText (fileHeader e.1 e.2.filename (mimeOf e.2)) (e.2.data.getD [])

/-- The first line of a header has no line end. -/
theorem cr_notMem_fieldHeader {key : Bytes} (hkey : IsName key) : 0x0D ∉ fieldHeader key := by
  have hne := hkey.notMem (c := 0x0D) (by simp)
  simp only [fieldHeader, List.append_assoc, List.mem_append, List.mem_cons, not_or]
  exact ⟨by decide, by decide, by decide, by decide, hne, by decide⟩

theorem zero_notMem_fieldHeader {key : Bytes} (hkey : IsName key) : 0 ∉ fieldHeader key := by
  have hne := hkey.zero_notMem
  simp only [fieldHeader, List.append_assoc, List.mem_append, List.mem_cons, not_or]
  exact ⟨by decide, by decide, by decide, by decide, hne, by decide⟩

/-- The two lines of the header of a file. -/
theorem fileHeader_eq (key filename mime : Bytes) :
    fileHeader key filename mime =
      (fieldHeader key ++ 0x3B :: 0x20 :: (filenameText ++ 0x3D :: quote :: (filename ++ [quote]))) ++
        (crlf ++ (contentTypeText ++ 0x3A :: 0x20 :: mime)) := by
  simp [fileHeader]

theorem cr_notMem_lines {key filename mime : Bytes} (hkey : IsName key) (hname : IsName filename)
    (hmime : IsContentType mime) :
    0x0D ∉ fieldHeader key ++ 0x3B :: 0x20 :: (filenameText ++ 0x3D :: quote :: (filename ++ [quote])) ∧
      0x0D ∉ contentTypeText ++ 0x3A :: 0x20 :: mime := by
  have hne := hname.notMem (c := 0x0D) (by simp)
  have hmime' : 0x0D ∉ mime := fun h => (hmime.2.1 _ h).2.1 rfl
  simp only [List.mem_append, List.mem_cons, not_or]
  exact ⟨⟨cr_notMem_fieldHeader hkey, by decide, by decide, by decide, by decide, by decide, hne, by decide⟩,
    by decide, by decide, by decide, hmime'⟩

theorem zero_notMem_fileHeader {key filename mime : Bytes} (hkey : IsName key) (hname : IsName filename)
    (hmime : IsContentType mime) : 0 ∉ fileHeader key filename mime := by
  have hne := hname.zero_notMem
  have hmime' : 0 ∉ mime := fun h => (hmime.2.1 _ h).1 rfl
  simp only [fileHeader, List.mem_append, List.mem_cons, not_or]
  exact ⟨zero_notMem_fieldHeader hkey, by decide, by decide, by decide, by decide, by decide, hne, by decide,
    by decide, by decide, by decide, by decide, hmime'⟩

/-- The parser finds the end of the header, and that of the payload. -/
def Framed (boundary header payload : Bytes) : Prop :=
  memmem (crlf ++ crlf) (partText header payload) = some header.length ∧
    Separable boundary (partText header payload)

/-- A header of one line. -/
theorem framed_line {boundary line payload : Bytes} (hb : 0x0D ∉ boundary) (hline : 0x0D ∉ line)
    (hpayload : Delimits boundary payload) : Framed boundary line payload := by
  refine ⟨?_, by simp [partText, crlf], fun rest => ?_⟩
  · have hskip := @memmem_skip UInt8 _ 0x0D [0x0A, 0x0D, 0x0A] line hline (crlf ++ (crlf ++ payload))
    rw [partText, show crlf ++ crlf = [0x0D, 0x0A, 0x0D, 0x0A] from rfl, hskip,
      memmem_of_isPrefix (by simp [crlf])]
    rfl
  · have hrest := memmem_payload hb hpayload rest
    have hskip := @memmem_line (0x2D :: 0x2D :: boundary) line
      (crlf ++ (payload ++ (crlfDelim boundary ++ rest))) hline (by simp [crlf])
    rw [partText, List.append_assoc, List.append_assoc, List.append_assoc]
    refine hskip.trans ?_
    rw [show 0x0D :: 0x0A :: 0x2D :: 0x2D :: boundary = crlfDelim boundary from rfl, hrest]
    simp [crlf]
    omega

/-- One more line, in front of a header that starts with a letter. -/
theorem Framed.cons {boundary line header payload : Bytes} (hline : 0x0D ∉ line)
    (h : Framed boundary (0x43 :: header) payload) :
    Framed boundary (line ++ (crlf ++ 0x43 :: header)) payload := by
  have hpart : partText (line ++ (crlf ++ 0x43 :: header)) payload =
      line ++ (crlf ++ partText (0x43 :: header) payload) := by
    simp [partText]
  refine ⟨?_, by simp [partText, crlf], fun rest => ?_⟩
  · have hskip := @memmem_line [0x0D, 0x0A] line (partText (0x43 :: header) payload) hline
      (by simp [partText])
    have hend := h.1
    rw [hpart]
    refine hskip.trans ?_
    rw [show [0x0D, 0x0A, 0x0D, 0x0A] = crlf ++ crlf from rfl, hend]
    simp [crlf]
    omega
  · have hskip := @memmem_line (0x2D :: 0x2D :: boundary) line
      (partText (0x43 :: header) payload ++ (crlfDelim boundary ++ rest)) hline (by simp [partText])
    have hend := h.2.2 rest
    rw [hpart, List.append_assoc, List.append_assoc]
    refine hskip.trans ?_
    rw [show 0x0D :: 0x0A :: 0x2D :: 0x2D :: boundary = crlfDelim boundary from rfl, hend]
    simp [crlf]
    omega

/-- What `process_part` has to look at. -/
theorem Framed.processPart_eq {boundary header payload : Bytes} (h : Framed boundary header payload)
    (hheader : 0 ∉ header) (mp : MultipartResult) :
    processPart mp (partText header payload) =
      (extractParam header nameText).elim mp fun name =>
        (extractParam header filenameText).elim { mp with fields := mp.fields.put name (cstr payload) }
          fun filename =>
            { mp with
              files := mp.files.put name (newHttpMultipartFile filename
                ((extractContentType header).getD octetStream) payload) } := by
  have hbody : (partText header payload).drop (header.length + 4) = payload := by
    rw [partText, ← List.append_assoc, ← List.append_assoc, List.drop_left']
    simp [crlf]
  have htake : (partText header payload).take header.length = header := List.take_left
  rw [processPart, h.1, Option.elim_some]
  simp only [htake, hbody, cstr_of_zero_notMem hheader]

/-- A field that can be sent and read back. -/
structure GoodField (boundary key value : Bytes) : Prop where
  name : IsName key
  zeroFree : 0 ∉ value
  delimits : Delimits boundary value
  fits : (fieldText boundary key value).length < 2048

/-- A file in memory that can be sent and read back. -/
structure GoodFile (boundary key : Bytes) (file : MultipartFile) : Prop where
  name : IsName key
  filename : IsName file.filename
  contentType : ∃ ct, file.contentType = some ct ∧ IsContentType ct
  data : ∃ d, file.data = some d ∧ d ≠ [] ∧ Delimits boundary d
  fits : (fileText boundary key file.filename (mimeOf file)).length < 2048

section Parts

variable {boundary : Bytes}

theorem GoodField.framed (hb : 0x0D ∉ boundary) {e : Bytes × Bytes} (h : GoodField boundary e.1 e.2) :
    Framed boundary (fieldHeader e.1) e.2 :=
  framed_line hb (cr_notMem_fieldHeader h.name) h.delimits

theorem GoodFile.mime {key : Bytes} {file : MultipartFile} (h : GoodFile boundary key file) :
    file.contentType = some (mimeOf file) ∧ IsContentType (mimeOf file) := by
  obtain ⟨ct, hct, hgood⟩ := h.contentType
  rw [mimeOf, hct]
  exact ⟨rfl, hgood⟩

theorem GoodFile.payload {key : Bytes} {file : MultipartFile} (h : GoodFile boundary key file) :
    file.data = some (file.data.getD []) ∧ file.data.getD [] ≠ [] ∧
      Delimits boundary (file.data.getD []) := by
  obtain ⟨d, hd, hne, hdelim⟩ := h.data
  rw [hd]
  exact ⟨rfl, hne, hdelim⟩

theorem GoodFile.framed (hb : 0x0D ∉ boundary) {e : Bytes × MultipartFile}
    (h : GoodFile boundary e.1 e.2) :
    Framed boundary (fileHeader e.1 e.2.filename (mimeOf e.2)) (e.2.data.getD []) := by
  obtain ⟨hfirst, hsecond⟩ := cr_notMem_lines h.name h.filename h.mime.2
  rw [fileHeader_eq]
  exact (framed_line hb hsecond h.payload.2.2).cons hfirst

/-- The part of a field gives the **field** back. -/
theorem processPart_fieldPart (hb : 0x0D ∉ boundary) {e : Bytes × Bytes}
    (h : GoodField boundary e.1 e.2) (mp : MultipartResult) :
    processPart mp (fieldPart e) = { mp with fields := mp.fields.put e.1 e.2 } := by
  have hname := extractParam_name h.name []
  rw [List.append_nil] at hname
  rw [fieldPart, (h.framed hb).processPart_eq (zero_notMem_fieldHeader h.name), hname,
    extractParam_filename_field h.name, cstr_of_zero_notMem h.zeroFree]
  rfl

/-- The part of a file gives the **file** back. -/
theorem processPart_filePart (hb : 0x0D ∉ boundary) {e : Bytes × MultipartFile}
    (h : GoodFile boundary e.1 e.2) (mp : MultipartResult) :
    processPart mp (filePart e) = { mp with files := mp.files.put e.1 e.2 } := by
  have hfile : newHttpMultipartFile e.2.filename (mimeOf e.2) (e.2.data.getD []) = e.2 := by
    rw [newHttpMultipartFile, if_neg h.payload.2.1, ← h.payload.1, ← h.mime.1]
  have hname : extractParam (fileHeader e.1 e.2.filename (mimeOf e.2)) nameText = some e.1 := by
    rw [fileHeader]
    exact extractParam_name h.name _
  rw [filePart, (h.framed hb).processPart_eq (zero_notMem_fileHeader h.name h.filename h.mime.2), hname,
    extractParam_filename h.name h.filename, extractContentType_eq h.name h.filename h.mime.2]
  simp only [Option.elim_some, Option.getD_some, hfile]

end Parts

/-! ### The body -/

/-- What the writer sends for a part. -/
def chunkText (boundary part : Bytes) : Bytes := bareDelim boundary ++ (crlf ++ (part ++ crlf))

/-- The chunks and the closing text are a delimiter and what stands behind it. -/
theorem flatten_chunks (boundary : Bytes) (parts : List Bytes) :
    (parts.map (chunkText boundary)).flatten ++ closingText boundary =
      bareDelim boundary ++ tailText boundary parts := by
  induction parts with
  | nil => simp [closingText, tailText]
  | cons part parts ih =>
      rw [List.map_cons, List.flatten_cons, List.append_assoc, ih, tailText]
      simp [chunkText, crlfDelim]

theorem concatAll_map_some (chunks : List Bytes) (last : Bytes) :
    concatAll (chunks.map some ++ [some last]) = some (chunks.flatten ++ last) := by
  induction chunks with
  | nil => simp [concatAll]
  | cons chunk chunks ih => simp [concatAll, ih]

/-- Escaping adds backslashes only. -/
theorem notMem_escape {c : UInt8} {s : Bytes} (hc : c ≠ 0x5C) (h : c ∉ s) :
    c ∉ multipartFilenameEscape s := by
  rw [multipartFilenameEscape, List.mem_flatMap]
  rintro ⟨d, hd, hmem⟩
  have hne : c ≠ d := fun heq => h (heq ▸ hd)
  split_ifs at hmem
  · rw [List.mem_cons, List.mem_singleton] at hmem
    exact hmem.elim hc hne
  · exact hne (List.mem_singleton.mp hmem)

theorem multipartFilenameEscape_of_isName {s : Bytes} (h : IsName s) : multipartFilenameEscape s = s := by
  have hself : ∀ c ∈ s, (if c ∈ [quote, 0x5C, 0x0D, 0x0A] then [0x5C, c] else [c]) = [c] := by
    intro c hc
    refine if_neg fun hmem => (h.2.2 c hc).2 ?_
    simp only [List.mem_cons, List.not_mem_nil, or_false] at hmem ⊢
    tauto
  rw [multipartFilenameEscape, List.flatMap_congr hself, List.flatMap_singleton']

section Body

variable {boundary : Bytes} {data : HashMap Bytes} {files : HashMap MultipartFile}

theorem sendField_eq (stack : ℕ → UInt8) {e : Bytes × Bytes} (hget : data.get e.1 = some e.2)
    (h : GoodField boundary e.1 e.2) :
    sendField stack boundary data e.1 = some (chunkText boundary (fieldPart e)) := by
  rw [sendField, hget, Option.elim_some, inBuffer, if_pos h.fits]
  simp [fieldText, chunkText, fieldPart, partText]

theorem sendFile_eq (stack : ℕ → UInt8) (disk : Bytes → Option Bytes) {e : Bytes × MultipartFile}
    (hget : files.get e.1 = some e.2) (h : GoodFile boundary e.1 e.2) :
    sendFile stack disk boundary files e.1 = some (chunkText boundary (filePart e)) := by
  rw [sendFile, hget, Option.elim_some, h.payload.1, Option.some_or, Option.map_some,
    multipartFilenameEscape_of_isName h.filename, inBuffer, if_pos h.fits]
  simp [fileText, chunkText, filePart, partText]

/-- The parts of a body. -/
def bodyParts (data : HashMap Bytes) (files : HashMap MultipartFile) : List Bytes :=
  data.entries.map fieldPart ++ files.entries.map filePart

/-- The bytes the writer **sends**. -/
theorem processMultipart_eq (stack : ℕ → UInt8) (disk : Bytes → Option Bytes)
    (hfields : ∀ e ∈ data.entries, data.get e.1 = some e.2 ∧ GoodField boundary e.1 e.2)
    (hfiles : ∀ e ∈ files.entries, files.get e.1 = some e.2 ∧ GoodFile boundary e.1 e.2) :
    processMultipart stack disk data files boundary =
      some (((bodyParts data files).map (chunkText boundary)).flatten ++
        inBuffer stack (closingText boundary)) := by
  have hsends : data.keys.map (sendField stack boundary data) ++
      files.keys.map (sendFile stack disk boundary files) =
        ((bodyParts data files).map (chunkText boundary)).map some := by
    simp only [HashMap.keys, bodyParts, List.map_append, List.map_map]
    congr 1
    · exact List.map_congr_left fun e he => sendField_eq stack (hfields e he).1 (hfields e he).2
    · exact List.map_congr_left fun e he => sendFile_eq stack disk (hfiles e he).1 (hfiles e he).2
  rw [processMultipart, hsends, concatAll_map_some]

/-- Where there is a part that fits the buffer, the closing text fits as well. -/
theorem closingText_fits (hne : bodyParts data files ≠ [])
    (hfields : ∀ e ∈ data.entries, GoodField boundary e.1 e.2)
    (hfiles : ∀ e ∈ files.entries, GoodFile boundary e.1 e.2) :
    (closingText boundary).length < 2048 := by
  obtain ⟨part, hpart⟩ := List.exists_mem_of_ne_nil _ hne
  rcases List.mem_append.mp hpart with hpart | hpart
  · obtain ⟨e, he, -⟩ := List.mem_map.mp hpart
    have hfits := (hfields e he).fits
    simp only [fieldText, closingText, List.length_append, crlf, List.length_cons, List.length_nil]
      at hfits ⊢
    omega
  · obtain ⟨e, he, -⟩ := List.mem_map.mp hpart
    have hfits := (hfiles e he).fits
    simp only [fileText, closingText, List.length_append, crlf, List.length_cons, List.length_nil]
      at hfits ⊢
    omega

theorem length_inBuffer (stack : ℕ → UInt8) (text : Bytes) :
    (inBuffer stack text).length = text.length := by
  rw [inBuffer]
  split
  · rfl
  · simp only [List.length_append, List.length_take, List.length_cons, List.length_map,
      List.length_range]
    omega

/-- A body that is as short as the closing text has no part, whatever stands in it. -/
theorem parseLoop_short {body : Bytes} (hne : boundary ≠ [])
    (hbody : body.length = (closingText boundary).length) (mp : MultipartResult) :
    parseLoop boundary true mp body = mp := by
  have hpos := List.length_pos_iff.mpr hne
  rw [parseLoop]
  split
  · rfl
  · cases hhit : memmem (delimOf boundary true) body with
    | none => rfl
    | some hit =>
        have hnone : memmem (crlfDelim boundary)
            (skipLineEnd (body.drop (hit + (delimOf boundary true).length))) = none := by
          refine Option.eq_none_iff_forall_ne_some.mpr fun next hnext => ?_
          have hlen := memmem_le hnext
          have hskip := length_skipLineEnd (body.drop (hit + (delimOf boundary true).length))
          simp only [closingText, crlfDelim, delimOf, bareDelim, crlf, List.length_append,
            List.length_drop, List.length_cons, List.length_nil, if_true] at *
          omega
        simp only [hnone, ite_self]

/-- What the parser stores. -/
theorem foldl_bodyParts (hb : 0x0D ∉ boundary)
    (hfields : ∀ e ∈ data.entries, GoodField boundary e.1 e.2)
    (hfiles : ∀ e ∈ files.entries, GoodFile boundary e.1 e.2) :
    (bodyParts data files).foldl processPart .new =
      { fields := data.entries.foldl (fun m e => m.put e.1 e.2) (HashMap.new 8)
        files := files.entries.foldl (fun m e => m.put e.1 e.2) (HashMap.new 4) } := by
  have hfield : ∀ (es : List (Bytes × Bytes)) (mp : MultipartResult),
      (∀ e ∈ es, GoodField boundary e.1 e.2) → (es.map fieldPart).foldl processPart mp =
        { mp with fields := es.foldl (fun m e => m.put e.1 e.2) mp.fields } := by
    intro es
    induction es with
    | nil => exact fun mp _ => rfl
    | cons e es ih =>
        intro mp hes
        obtain ⟨he, hes⟩ := List.forall_mem_cons.mp hes
        rw [List.map_cons, List.foldl_cons, processPart_fieldPart hb he, ih _ hes]
        rfl
  have hfile : ∀ (es : List (Bytes × MultipartFile)) (mp : MultipartResult),
      (∀ e ∈ es, GoodFile boundary e.1 e.2) → (es.map filePart).foldl processPart mp =
        { mp with files := es.foldl (fun m e => m.put e.1 e.2) mp.files } := by
    intro es
    induction es with
    | nil => exact fun mp _ => rfl
    | cons e es ih =>
        intro mp hes
        obtain ⟨he, hes⟩ := List.forall_mem_cons.mp hes
        rw [List.map_cons, List.foldl_cons, processPart_filePart hb he, ih _ hes]
        rfl
  rw [bodyParts, List.foldl_append, hfield _ _ hfields, hfile _ _ hfiles]
  rfl

/-- The parser hands the parts of the writer to `process_part`. -/
theorem parse_sent (stack : ℕ → UInt8) (hne : boundary ≠ []) (hb : 0x0D ∉ boundary)
    (hfields : ∀ e ∈ data.entries, GoodField boundary e.1 e.2)
    (hfiles : ∀ e ∈ files.entries, GoodFile boundary e.1 e.2) :
    parse (((bodyParts data files).map (chunkText boundary)).flatten ++
      inBuffer stack (closingText boundary)) boundary =
        some ((bodyParts data files).foldl processPart .new) := by
  have hbody : ((bodyParts data files).map (chunkText boundary)).flatten ++
      inBuffer stack (closingText boundary) ≠ [] := by
    refine List.append_ne_nil_of_right_ne_nil _ (List.length_pos_iff.mp ?_)
    rw [length_inBuffer]
    simp [closingText, bareDelim]
  rw [parse, if_neg (not_or.mpr ⟨hbody, hne⟩)]
  by_cases hempty : bodyParts data files = []
  · rw [hempty]
    exact congrArg some (parseLoop_short hne (length_inBuffer stack _) _)
  · have hparts : ∀ part ∈ bodyParts data files, Separable boundary part := by
      refine List.forall_mem_append.mpr ⟨List.forall_mem_map.mpr fun e he => ?_,
        List.forall_mem_map.mpr fun e he => ?_⟩
      · exact ((hfields e he).framed hb).2
      · exact ((hfiles e he).framed hb).2
    rw [inBuffer, if_pos (closingText_fits hempty hfields hfiles), flatten_chunks]
    exact congrArg some (parseLoop_tailText hparts true .new)

end Body

/-- **The way of a form.** For every map of fields and every map of files in memory that can be sent, the
parser makes of the bytes the writer sends exactly these fields and these files. -/
theorem multipart_round_trip (stack : ℕ → UInt8) (disk : Bytes → Option Bytes) {boundary : Bytes}
    (hne : boundary ≠ []) (hb : 0x0D ∉ boundary ∧ 0x0A ∉ boundary) {data : HashMap Bytes}
    {files : HashMap MultipartFile} {f : HashMap.FMap Bytes} {g : HashMap.FMap MultipartFile}
    (hdata : data.Represents f) (hfiles : files.Represents g)
    (hf : ∀ k v, f.lookup k = some v → GoodField boundary k v)
    (hg : ∀ k file, g.lookup k = some file → GoodFile boundary k file) :
    ∃ body mp, processMultipart stack disk data files boundary = some body ∧
      parse body boundary = some mp ∧ mp.fields.Represents f ∧ mp.files.Represents g := by
  have hfield : ∀ e ∈ data.entries, GoodField boundary e.1 e.2 :=
    fun e he => hf e.1 e.2 ((hdata.mem_iff e.1 e.2).mp he)
  have hfile : ∀ e ∈ files.entries, GoodFile boundary e.1 e.2 :=
    fun e he => hg e.1 e.2 ((hfiles.mem_iff e.1 e.2).mp he)
  have hgetField : ∀ e ∈ data.entries, data.get e.1 = some e.2 := fun e he =>
    (hdata.get (hfield e he).name.2.1).trans ((hdata.mem_iff e.1 e.2).mp he)
  have hgetFile : ∀ e ∈ files.entries, files.get e.1 = some e.2 := fun e he =>
    (hfiles.get (hfile e he).name.2.1).trans ((hfiles.mem_iff e.1 e.2).mp he)
  refine ⟨_, { fields := data.entries.foldl (fun m e => m.put e.1 e.2) (HashMap.new 8)
               files := files.entries.foldl (fun m e => m.put e.1 e.2) (HashMap.new 4) },
    processMultipart_eq stack disk (fun e he => ⟨hgetField e he, hfield e he⟩)
      (fun e he => ⟨hgetFile e he, hfile e he⟩), ?_, ?_, ?_⟩
  · rw [parse_sent stack hne hb.1 hfield hfile, foldl_bodyParts hb.1 hfield hfile]
  · exact hdata.rebuild (fun e he => (hfield e he).name.2.1) 8
  · exact hfiles.rebuild (fun e he => (hfile e he).name.2.1) 4

/-- A text file with the given bytes. -/
def sampleFile (data : Bytes) : MultipartFile where
  filename := ascii ['a', '.', 't', 'x', 't']
  contentType := some (ascii ['t', 'e', 'x', 't', '/', 'p', 'l', 'a', 'i', 'n'])
  data := some data

theorem multipart_round_trip_sample :
    ∃ body mp, processMultipart (fun _ => 0) (fun _ => none) ((HashMap.new 16).put [0x6B] [0x0D])
        ((HashMap.new 16).put [0x66] (sampleFile [0x00, 0x0D, 0x0A])) [0x62] = some body ∧
      parse body [0x62] = some mp ∧
        mp.fields.Represents ((∅ : HashMap.FMap Bytes).insert [0x6B] [0x0D]) ∧
        mp.files.Represents
          ((∅ : HashMap.FMap MultipartFile).insert [0x66] (sampleFile [0x00, 0x0D, 0x0A])) := by
  have hdata := (HashMap.represents_new 16).put (show ([0x6B] : Bytes).length < maxKeyLen by decide)
    ([0x0D] : Bytes)
  have hfiles := (HashMap.represents_new 16).put (show ([0x66] : Bytes).length < maxKeyLen by decide)
    (sampleFile [0x00, 0x0D, 0x0A])
  refine multipart_round_trip (fun _ => 0) (fun _ => none) (by decide) (by decide) hdata hfiles ?_ ?_
  · intro k v hv
    obtain ⟨rfl, rfl⟩ := HashMap.lookup_single hv
    exact ⟨⟨by decide, by decide, by decide +kernel⟩, by decide, by unfold Delimits; decide, by decide⟩
  · intro k file hfile
    obtain ⟨rfl, rfl⟩ := HashMap.lookup_single hfile
    exact ⟨⟨by decide, by decide, by decide +kernel⟩, ⟨by decide, by decide, by decide +kernel⟩,
      ⟨_, rfl, by decide, by decide +kernel, by decide, by decide⟩,
      ⟨_, rfl, by decide, by unfold Delimits; decide⟩, by decide⟩

end Multipart
