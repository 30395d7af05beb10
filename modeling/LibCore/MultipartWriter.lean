import LibCore.MultipartRoundTrip

/-!
# What the Multipart Writer Sends

`process_multipart` formats each text into a buffer of 2048 bytes and goes on with the length the text
would have had. The same loop, without sending, computes the length that is announced. The bytes it
sends are compared with the complete texts, piece by piece.

A file that is not in memory is measured with `stat` and read from the disk; its size does not change
in between.

## Main definitions

* `calculateLength`: `MultipartWriter_calculate_length`.
* `wholeBody`: the complete texts and the data of the files.

## Main results

* `calculateLength_sent`: the announced length is the number of bytes that are sent.
* `writer_exact_iff`: the bytes are those of the complete texts exactly if these fit the buffer.
-/

open CString

namespace Multipart

/-! ### The length -/

/-- The text in front of the data of a file, as the writer formats it. -/
def fileTextOf (boundary key : Bytes) (file : MultipartFile) : Bytes :=
  fileText boundary key (multipartFilenameEscape file.filename) (mimeOf file)

/-- A round of the loop over the fields, without sending. -/
def lengthField (boundary : Bytes) (data : HashMap Bytes) (key : Bytes) : Option ℕ :=
  (data.get key).elim (some 0) fun value => some (fieldText boundary key value).length

/-- A round of the loop over the files, without sending; `stat` gives the size of a file. -/
def lengthFile (stat : Bytes → Option ℕ) (boundary : Bytes) (files : HashMap MultipartFile)
    (key : Bytes) : Option ℕ :=
  (files.get key).elim (some 0) fun file =>
    ((file.data.map List.length).or (stat file.filename)).map fun size =>
      (fileTextOf boundary key file).length + size + 2

/-- The sum of several lengths, unless one is missing. -/
def sumAll : List (Option ℕ) → Option ℕ
  | [] => some 0
  | n :: ns => n.bind fun n => (sumAll ns).map (n + ·)

/-- `MultipartWriter_calculate_length`: `none` for `-1`. -/
def calculateLength (stat : Bytes → Option ℕ) (data : HashMap Bytes) (files : HashMap MultipartFile)
    (boundary : Bytes) : Option ℕ :=
  sumAll (data.keys.map (lengthField boundary data) ++ files.keys.map (lengthFile stat boundary files) ++
    [some (closingText boundary).length])

/-! ### Pieces -/

/-- What is sent for a field when a text goes through `buffer`. -/
def fieldPiece (buffer : Bytes → Bytes) (boundary : Bytes) (data : HashMap Bytes) (key : Bytes) :
    Option Bytes :=
  (data.get key).elim (some []) fun value => some (buffer (fieldText boundary key value))

/-- What is sent for a file when a text goes through `buffer`. -/
def filePiece (buffer : Bytes → Bytes) (disk : Bytes → Option Bytes) (boundary : Bytes)
    (files : HashMap MultipartFile) (key : Bytes) : Option Bytes :=
  (files.get key).elim (some []) fun file =>
    (file.data.or (disk file.filename)).map fun data => buffer (fileTextOf boundary key file) ++ data ++ crlf

/-- The pieces of a body. -/
def pieces (buffer : Bytes → Bytes) (disk : Bytes → Option Bytes) (data : HashMap Bytes)
    (files : HashMap MultipartFile) (boundary : Bytes) : List (Option Bytes) :=
  data.keys.map (fieldPiece buffer boundary data) ++ files.keys.map (filePiece buffer disk boundary files) ++
    [some (buffer (closingText boundary))]

/-- The complete texts of all parts, the data of the files and the closing delimiter. -/
def wholeBody (disk : Bytes → Option Bytes) (data : HashMap Bytes) (files : HashMap MultipartFile)
    (boundary : Bytes) : Option Bytes :=
  concatAll (pieces id disk data files boundary)

/-- The texts that are formatted into the buffer. -/
def texts (data : HashMap Bytes) (files : HashMap MultipartFile) (boundary : Bytes) : List Bytes :=
  data.keys.filterMap (fun key => (data.get key).map (fieldText boundary key)) ++
    files.keys.filterMap (fun key => (files.get key).map (fileTextOf boundary key)) ++
    [closingText boundary]

/-- Every file is in memory or can be read. -/
def Readable (disk : Bytes → Option Bytes) (files : HashMap MultipartFile) : Prop :=
  ∀ key ∈ files.keys, ∀ file ∈ files.get key, (file.data.or (disk file.filename)).isSome = true

/-- Names, values and the boundary are C strings. -/
structure ZeroFree (data : HashMap Bytes) (files : HashMap MultipartFile) (boundary : Bytes) : Prop where
  boundary : 0 ∉ boundary
  fields : ∀ key ∈ data.keys, ∀ value ∈ data.get key, 0 ∉ key ∧ 0 ∉ value
  files : ∀ key ∈ files.keys, ∀ file ∈ files.get key, 0 ∉ key ∧ 0 ∉ file.filename ∧
    ∀ contentType ∈ file.contentType, 0 ∉ contentType

/-! ### Sums and concatenations -/

theorem sumAll_map_length (chunks : List (Option Bytes)) :
    sumAll (chunks.map (Option.map List.length)) = (concatAll chunks).map List.length := by
  induction chunks with
  | nil => rfl
  | cons chunk chunks ih =>
      cases chunk with
      | none => rfl
      | some s =>
          rw [List.map_cons, Option.map_some, sumAll, concatAll, Option.bind_some, Option.bind_some, ih]
          cases concatAll chunks with
          | none => rfl
          | some t => simp

/-- Chunks of the same lengths are the same if what they make together is. -/
theorem eq_of_concatAll {chunks chunks' : List (Option Bytes)} {body : Bytes}
    (hlengths : chunks.map (Option.map List.length) = chunks'.map (Option.map List.length))
    (h : concatAll chunks = some body) (h' : concatAll chunks' = some body) : chunks = chunks' := by
  induction chunks generalizing chunks' body with
  | nil =>
      rw [List.map_nil, eq_comm, List.map_eq_nil_iff] at hlengths
      exact hlengths.symm
  | cons chunk chunks ih =>
      cases chunks' with
      | nil => simp at hlengths
      | cons chunk' chunks' =>
          rw [List.map_cons, List.map_cons, List.cons.injEq] at hlengths
          obtain ⟨s, rfl, hrest⟩ := Option.bind_eq_some_iff.mp h
          obtain ⟨s', rfl, hrest'⟩ := Option.bind_eq_some_iff.mp h'
          obtain ⟨t, ht, rfl⟩ := Option.map_eq_some_iff.mp hrest
          obtain ⟨t', ht', heq⟩ := Option.map_eq_some_iff.mp hrest'
          obtain ⟨rfl, rfl⟩ := List.append_inj heq (Option.some.inj hlengths.1).symm
          rw [ih hlengths.2 ht ht']

theorem isSome_of_concatAll {chunks : List (Option Bytes)} {body : Bytes}
    (h : concatAll chunks = some body) : ∀ chunk ∈ chunks, chunk.isSome = true := by
  induction chunks generalizing body with
  | nil => simp
  | cons chunk chunks ih =>
      obtain ⟨s, rfl, hrest⟩ := Option.bind_eq_some_iff.mp h
      obtain ⟨t, ht, -⟩ := Option.map_eq_some_iff.mp hrest
      exact List.forall_mem_cons.mpr ⟨rfl, ih ht⟩

theorem concatAll_isSome {chunks : List (Option Bytes)} (h : ∀ chunk ∈ chunks, chunk.isSome = true) :
    ∃ body, concatAll chunks = some body := by
  induction chunks with
  | nil => exact ⟨[], rfl⟩
  | cons chunk chunks ih =>
      obtain ⟨hchunk, hchunks⟩ := List.forall_mem_cons.mp h
      obtain ⟨s, rfl⟩ := Option.isSome_iff_exists.mp hchunk
      obtain ⟨t, ht⟩ := ih hchunks
      exact ⟨s ++ t, by rw [concatAll, ht]; rfl⟩

section Body

variable {stack : ℕ → UInt8} {disk : Bytes → Option Bytes} {stat : Bytes → Option ℕ}
  {data : HashMap Bytes} {files : HashMap MultipartFile} {boundary : Bytes} {buffer : Bytes → Bytes}

/-- All pieces are there exactly if all files can be read. -/
theorem pieces_isSome_iff :
    (∀ piece ∈ pieces buffer disk data files boundary, piece.isSome = true) ↔ Readable disk files := by
  have hfield : ∀ key, (fieldPiece buffer boundary data key).isSome = true := by
    intro key
    rw [fieldPiece]
    cases data.get key <;> rfl
  have hfile : ∀ key, (filePiece buffer disk boundary files key).isSome = true ↔
      ∀ file ∈ files.get key, (file.data.or (disk file.filename)).isSome = true := by
    intro key
    rw [filePiece]
    cases files.get key <;> simp
  rw [pieces, List.forall_mem_append, List.forall_mem_append, List.forall_mem_map, List.forall_mem_map]
  constructor
  · rintro ⟨⟨-, hall⟩, -⟩ key hkey
    exact (hfile key).mp (hall key hkey)
  · intro hall
    exact ⟨⟨fun key _ => hfield key, fun key hkey => (hfile key).mpr (hall key hkey)⟩, by simp⟩

/-- The lengths of the pieces are the ones that are added up. -/
theorem pieces_lengths (hbuffer : ∀ text, (buffer text).length = text.length)
    (hstat : ∀ name content, disk name = some content → stat name = some content.length)
    (hread : Readable disk files) :
    (pieces buffer disk data files boundary).map (Option.map List.length) =
      data.keys.map (lengthField boundary data) ++ files.keys.map (lengthFile stat boundary files) ++
        [some (closingText boundary).length] := by
  rw [pieces, List.map_append, List.map_append, List.map_map, List.map_map]
  congr 1
  · congr 1
    · refine List.map_congr_left fun key _ => ?_
      rw [Function.comp, fieldPiece, lengthField]
      cases data.get key with
      | none => rfl
      | some value => simp [hbuffer]
    · refine List.map_congr_left fun key hkey => ?_
      have hfile := hread key hkey
      rw [Function.comp, filePiece, lengthFile]
      cases hget : files.get key with
      | none => rfl
      | some file =>
          have hsome := hfile file hget
          rw [Option.elim_some, Option.elim_some]
          cases hdata : file.data with
          | some content => simp [hbuffer, crlf, Nat.add_assoc]
          | none =>
              rw [hdata, Option.none_or] at hsome
              obtain ⟨content, hcontent⟩ := Option.isSome_iff_exists.mp hsome
              simp [hcontent, hstat _ _ hcontent, hbuffer, crlf, Nat.add_assoc]
  · simp [hbuffer]

/-- **The announced length** is the number of bytes that are sent, whether they are right or not. -/
theorem calculateLength_sent
    (hstat : ∀ name content, disk name = some content → stat name = some content.length)
    (hread : Readable disk files) :
    ∃ sent, processMultipart stack disk data files boundary = some sent ∧
      calculateLength stat data files boundary = some sent.length := by
  obtain ⟨sent, hsent⟩ := concatAll_isSome
    ((@pieces_isSome_iff disk data files boundary (inBuffer stack)).mpr hread)
  refine ⟨sent, hsent, ?_⟩
  rw [calculateLength, ← pieces_lengths (length_inBuffer stack) hstat hread, sumAll_map_length, hsent]
  rfl

/-! ### The buffer -/

theorem zero_notMem_inferMimeType (filename : Bytes) : 0 ∉ inferMimeType filename := by
  rw [inferMimeType]
  simp only
  split_ifs <;> decide

theorem zero_notMem_mimeOf {file : MultipartFile} (h : ∀ ct ∈ file.contentType, 0 ∉ ct) :
    0 ∉ mimeOf file := by
  rw [mimeOf]
  cases hct : file.contentType with
  | none => exact zero_notMem_inferMimeType _
  | some ct => exact h ct hct

theorem zero_notMem_bareDelim (h : 0 ∉ boundary) : 0 ∉ bareDelim boundary := by
  simpa [bareDelim] using h

/-- The texts of C strings are C strings. -/
theorem ZeroFree.texts (h : ZeroFree data files boundary) :
    ∀ text ∈ texts data files boundary, 0 ∉ text := by
  have hdelim := zero_notMem_bareDelim h.boundary
  have hkey : ∀ {key : Bytes}, 0 ∉ key → 0 ∉ fieldHeader key := by
    intro key hkey
    simp only [fieldHeader, List.append_assoc, List.mem_append, List.mem_cons, not_or]
    exact ⟨by decide, by decide, by decide, by decide, hkey, by decide⟩
  rw [Multipart.texts, List.forall_mem_append, List.forall_mem_append]
  refine ⟨⟨fun text htext => ?_, fun text htext => ?_⟩, fun text htext => ?_⟩
  · obtain ⟨key, hmem, htext⟩ := List.mem_filterMap.mp htext
    obtain ⟨value, hvalue, rfl⟩ := Option.map_eq_some_iff.mp htext
    obtain ⟨hk, hv⟩ := h.fields key hmem value hvalue
    simp only [fieldText, List.mem_append, not_or]
    exact ⟨⟨⟨⟨⟨⟨hdelim, by decide⟩, hkey hk⟩, by decide⟩, by decide⟩, hv⟩, by decide⟩
  · obtain ⟨key, hmem, htext⟩ := List.mem_filterMap.mp htext
    obtain ⟨file, hfile, rfl⟩ := Option.map_eq_some_iff.mp htext
    obtain ⟨hk, hname, hct⟩ := h.files key hmem file hfile
    simp only [fileTextOf, fileText, fileHeader, List.mem_append, List.mem_cons, not_or]
    exact ⟨⟨⟨⟨hdelim, by decide⟩, hkey hk, by decide, by decide, by decide, by decide, by decide,
      notMem_escape (by decide) hname, by decide, by decide, by decide, by decide, by decide,
      zero_notMem_mimeOf hct⟩, by decide⟩, by decide⟩
  · rw [List.mem_singleton.mp htext]
    simp only [closingText, List.mem_append, not_or]
    exact ⟨⟨hdelim, by decide⟩, by decide⟩

/-- A text comes out of the buffer as it is exactly if it fits. -/
theorem inBuffer_eq_iff {text : Bytes} (hzero : 0 ∉ text) :
    inBuffer stack text = text ↔ text.length < 2048 := by
  constructor
  · intro heq
    by_contra hlong
    rw [inBuffer, if_neg hlong] at heq
    -- the terminator stands where the text has another byte
    have hmem : (0 : UInt8) ∈ text := heq ▸ by simp
    exact hzero hmem
  · intro hfits
    rw [inBuffer, if_pos hfits]

/-- The pieces are complete exactly if the texts come out of the buffer as they are. -/
theorem pieces_eq_iff (hread : Readable disk files) :
    pieces buffer disk data files boundary = pieces id disk data files boundary ↔
      ∀ text ∈ texts data files boundary, buffer text = text := by
  have hfield : ∀ key, fieldPiece buffer boundary data key = fieldPiece id boundary data key ↔
      ∀ text ∈ (data.get key).map (fieldText boundary key), buffer text = text := by
    intro key
    rw [fieldPiece, fieldPiece]
    cases data.get key <;> simp
  have hfile : ∀ key ∈ files.keys,
      (filePiece buffer disk boundary files key = filePiece id disk boundary files key ↔
        ∀ text ∈ (files.get key).map (fileTextOf boundary key), buffer text = text) := by
    intro key hkey
    have hsome := hread key hkey
    rw [filePiece, filePiece]
    cases hget : files.get key with
    | none => simp
    | some file =>
        obtain ⟨content, hcontent⟩ := Option.isSome_iff_exists.mp (hsome file hget)
        simp [hcontent]
  rw [pieces, pieces, texts, List.forall_mem_append, List.forall_mem_append]
  constructor
  · intro heq
    obtain ⟨hinit, hlast⟩ := List.append_inj' heq rfl
    obtain ⟨hfields, hfiles⟩ := List.append_inj hinit (by simp)
    rw [List.map_inj_left] at hfields hfiles
    refine ⟨⟨fun text htext => ?_, fun text htext => ?_⟩, by simpa using hlast⟩
    · obtain ⟨key, hkey, hmem⟩ := List.mem_filterMap.mp htext
      exact (hfield key).mp (hfields key hkey) text hmem
    · obtain ⟨key, hkey, hmem⟩ := List.mem_filterMap.mp htext
      exact (hfile key hkey).mp (hfiles key hkey) text hmem
  · rintro ⟨⟨hfields, hfiles⟩, hclosing⟩
    have hfields' : data.keys.map (fieldPiece buffer boundary data) =
        data.keys.map (fieldPiece id boundary data) :=
      List.map_congr_left fun key hkey => (hfield key).mpr fun text htext =>
        hfields text (List.mem_filterMap.mpr ⟨key, hkey, htext⟩)
    have hfiles' : files.keys.map (filePiece buffer disk boundary files) =
        files.keys.map (filePiece id disk boundary files) :=
      List.map_congr_left fun key hkey => (hfile key hkey).mpr fun text htext =>
        hfiles text (List.mem_filterMap.mpr ⟨key, hkey, htext⟩)
    rw [hfields', hfiles', hclosing _ List.mem_cons_self]
    rfl

/-- **What the writer sends**: the complete texts, as many bytes as were announced, exactly if every
file can be read and every text fits the buffer with its terminator. -/
theorem writer_exact_iff (stack : ℕ → UInt8) (disk : Bytes → Option Bytes) (stat : Bytes → Option ℕ)
    (hstat : ∀ name content, disk name = some content → stat name = some content.length)
    (data : HashMap Bytes) (files : HashMap MultipartFile) (boundary : Bytes)
    (hzero : ZeroFree data files boundary) :
    (∃ body, wholeBody disk data files boundary = some body ∧
        processMultipart stack disk data files boundary = some body ∧
        calculateLength stat data files boundary = some body.length) ↔
      Readable disk files ∧ ∀ text ∈ texts data files boundary, text.length < 2048 := by
  have hfits : (∀ text ∈ texts data files boundary, inBuffer stack text = text) ↔
      ∀ text ∈ texts data files boundary, text.length < 2048 :=
    forall₂_congr fun text htext => inBuffer_eq_iff (hzero.texts text htext)
  rw [← hfits]
  constructor
  · rintro ⟨body, hwhole, hsent, -⟩
    have hread : Readable disk files := pieces_isSome_iff.mp (isSome_of_concatAll hwhole)
    refine ⟨hread, (pieces_eq_iff hread).mp ?_⟩
    refine eq_of_concatAll ?_ hsent hwhole
    rw [pieces_lengths (length_inBuffer stack) hstat hread,
      @pieces_lengths _ stat _ _ _ id (fun _ => rfl) hstat hread]
  · rintro ⟨hread, htexts⟩
    obtain ⟨sent, hsent, hlength⟩ := @calculateLength_sent stack disk stat data files boundary hstat hread
    refine ⟨sent, ?_, hsent, hlength⟩
    rw [wholeBody, ← (pieces_eq_iff hread).mpr htexts]
    exact hsent

end Body

/-- A field of one letter. -/
theorem writer_exact_iff_sample :
    let data := (HashMap.new 16).put [0x6B] [0x76]
    ∃ body, wholeBody (fun _ => none) data (HashMap.new 16) [0x62] = some body ∧
      processMultipart (fun _ => 7) (fun _ => none) data (HashMap.new 16) [0x62] = some body ∧
      calculateLength (fun _ => none) data (HashMap.new 16) [0x62] = some body.length := by
  intro data
  refine (writer_exact_iff (fun _ => 7) (fun _ => none) (fun _ => none) (fun _ _ h => by cases h) data
    (HashMap.new 16) [0x62] ⟨by decide, by decide +kernel, by decide +kernel⟩).mpr ⟨?_, ?_⟩
  · unfold Readable
    decide +kernel
  · decide +kernel

/-- A field of 2048 letters: the byte where the buffer ends is a terminator, and behind it stands what
was in memory. -/
theorem long_field_cut_off :
    let data := (HashMap.new 16).put [0x6B] (List.replicate 2048 0x76)
    let sent := processMultipart (fun _ => 7) (fun _ => none) data (HashMap.new 16) [0x62]
    sent ≠ wholeBody (fun _ => none) data (HashMap.new 16) [0x62] ∧
      (sent.getD [])[2047]? = some 0 ∧ (sent.getD [])[2048]? = some 7 := by
  decide +kernel

end Multipart
