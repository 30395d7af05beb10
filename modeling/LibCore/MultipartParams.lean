import LibCore.MultipartRoundTrip

/-!
# The Parameters of a Part

`extract_param` looks for a parameter as a text that has a semicolon, a blank or nothing in front of
it, wherever it stands, and reads a quoted value up to the next quote. The writer escapes quotes,
backslashes and line ends with a backslash; the parser knows neither escapes nor what is inside of
quotes.

## Main definitions

* `First`: the first place that looks like a parameter.
* `paramValue`: the value that is read there.

## Main results

* `filename_round_trip_iff`: which file names come back.
* `text_part_iff`: which parts are stored as text fields.
-/

open CString Search

namespace Multipart

/-! ### Looking for a parameter -/

/-- What is read as the value of a parameter. -/
def paramValue (p : Bytes) : Bytes :=
  if p.head? = some quote then p.tail.takeWhile (· ≠ quote)
  else p.takeWhile fun c => c ∉ [0x3B, 0x0D, 0x0A, 0x20]

/-- Behind the first place where a parameter, in any case, has a semicolon, a blank or nothing in front
of it, stands `b`. -/
def First (param header b : Bytes) : Prop :=
  ∃ a, Occurs tolower startsParam (param ++ [0x3D]) none header a b ∧
    ∀ a' b', Occurs tolower startsParam (param ++ [0x3D]) none header a' b' → a.length ≤ a'.length

theorem behind_eq_some_iff_first {param header b : Bytes} :
    behind tolower startsParam (param ++ [0x3D]) none header = some b ↔ First param header b :=
  behind_eq_some_iff (by simp)

theorem extractParam_eq_some_iff {param header value : Bytes} :
    extractParam header param = some value ↔
      ∃ b, First param header b ∧ paramValue b = value ∧ value ≠ [] := by
  rw [extractParam, Option.bind_eq_some_iff]
  refine exists_congr fun b => and_congr behind_eq_some_iff_first ?_
  change (if paramValue b = [] then none else some (paramValue b)) = some value ↔ _
  by_cases hnil : paramValue b = []
  · rw [if_pos hnil]
    refine iff_of_false (by simp) ?_
    rintro ⟨rfl, hne⟩
    exact hne hnil
  · rw [if_neg hnil, Option.some.injEq]
    exact ⟨fun heq => ⟨heq, heq ▸ hnil⟩, And.left⟩

theorem extractParam_eq_none_iff {param header : Bytes} :
    extractParam header param = none ↔ ∀ b, First param header b → paramValue b = [] := by
  constructor
  · intro hnone b hb
    by_contra hne
    have hsome := extractParam_eq_some_iff.mpr ⟨b, hb, rfl, hne⟩
    rw [hnone] at hsome
    cases hsome
  · intro hall
    refine Option.eq_none_iff_forall_ne_some.mpr fun value hvalue => ?_
    obtain ⟨b, hb, rfl, hne⟩ := extractParam_eq_some_iff.mp hvalue
    exact hne (hall b hb)

/-! ### The way of a file name -/

/-- A field name holds what looks like the parameter `filename`. -/
def Embeds (key : Bytes) : Prop :=
  ∃ before c text after, key = before ++ c :: (text ++ after) ∧ c ∈ ([0x3B, 0x20, 0x09] : Bytes) ∧
    text.map tolower = filenameText ++ [0x3D]

theorem behind_of_not_embeds {key : Bytes} (h : ¬Embeds key) :
    behind tolower startsParam (filenameText ++ [0x3D]) (some quote) key = none := by
  refine (behind_eq_none_iff (by simp)).mpr ?_
  rintro a b ⟨text, rfl, htext, hgood⟩
  rcases List.eq_nil_or_concat a with rfl | ⟨a, c, rfl⟩
  · exact absurd hgood (by decide)
  · rw [List.concat_eq_append] at hgood h
    refine h ⟨a, c, text, b, by simp, ?_, htext⟩
    rw [List.getLast?_concat, Option.some_or] at hgood
    simpa [startsParam, or_assoc] using hgood

/-- What stands behind the field name in the header of a file. -/
def afterKey : Bytes := quote :: 0x3B :: 0x20 :: (filenameText ++ [0x3D, quote])

/-- What stands behind that. -/
def afterQuote (filename mime : Bytes) : Bytes :=
  filename ++ quote :: (crlf ++ (contentTypeText ++ 0x3A :: 0x20 :: mime))

/-- The parameter is found in the field name, or else where the writer has put it. -/
theorem behind_fileHeader (key filename mime : Bytes) :
    behind tolower startsParam (filenameText ++ [0x3D]) none (fileHeader key filename mime) =
      ((behind tolower startsParam (filenameText ++ [0x3D]) (some quote) key).map
        (· ++ (afterKey ++ afterQuote filename mime))).or
          (some (quote :: afterQuote filename mime)) := by
  have htext : fileHeader key filename mime = (dispositionText ++ nameText ++ [0x3D]) ++ quote ::
      (key ++ quote :: ((0x3B :: 0x20 :: (filenameText ++ [0x3D])) ++ quote ::
        afterQuote filename mime)) := by
    simp [fileHeader, fieldHeader, afterQuote]
  have hafter : quote :: ((0x3B :: 0x20 :: (filenameText ++ [0x3D])) ++ quote ::
      afterQuote filename mime) = afterKey ++ afterQuote filename mime := by
    simp [afterKey]
  have hquote : tolower quote ∉ filenameText ++ [0x3D] := by decide
  have hne : filenameText ++ [0x3D] ≠ [] := by decide
  have hfirst : behind tolower startsParam (filenameText ++ [0x3D]) none
      (dispositionText ++ nameText ++ [0x3D]) = none := by decide +kernel
  have hthird : behind tolower startsParam (filenameText ++ [0x3D]) (some quote)
      (0x3B :: 0x20 :: (filenameText ++ [0x3D])) = some [] := by decide +kernel
  rw [htext, behind_barrier hne hquote, hfirst, behind_barrier hne hquote, behind_barrier hne hquote,
    hthird, hafter]
  rfl

/-- A character that the writer escapes. -/
abbrev IsSpecial (c : UInt8) : Prop := c ∈ ([quote, 0x5C, 0x0D, 0x0A] : Bytes)

theorem escape_cons (c : UInt8) (s : Bytes) :
    multipartFilenameEscape (c :: s) =
      (if IsSpecial c then [0x5C, c] else [c]) ++ multipartFilenameEscape s := rfl

theorem length_le_escape (s : Bytes) : s.length ≤ (multipartFilenameEscape s).length := by
  induction s with
  | nil => exact le_rfl
  | cons c s ih =>
      rw [escape_cons]
      split_ifs <;> simp only [List.length_append, List.length_cons, List.length_nil] <;> omega

/-- A name stays as it is exactly if nothing in it is escaped. -/
theorem escape_eq_iff (s : Bytes) : multipartFilenameEscape s = s ↔ ∀ c ∈ s, ¬IsSpecial c := by
  induction s with
  | nil => exact iff_of_true rfl (by simp)
  | cons c s ih =>
      rw [escape_cons, List.forall_mem_cons]
      split_ifs with hc
      · refine iff_of_false (fun heq => ?_) fun h => h.1 hc
        have hlen := congrArg List.length heq
        have hle := length_le_escape s
        simp only [List.length_append, List.length_cons, List.length_nil] at hlen
        omega
      · rw [List.singleton_append, List.cons.injEq, ih]
        exact ⟨fun h => ⟨hc, h.2⟩, fun h => ⟨rfl, h.2⟩⟩

/-- What is read of an escaped name is the name exactly if nothing in it is escaped. -/
theorem takeWhile_escape_iff (s rest : Bytes) :
    (multipartFilenameEscape s ++ quote :: rest).takeWhile (· ≠ quote) = s ↔
      ∀ c ∈ s, ¬IsSpecial c := by
  have hread : quote ∉ s → (multipartFilenameEscape s ++ quote :: rest).takeWhile (· ≠ quote) =
      multipartFilenameEscape s := by
    intro hquote
    refine takeWhile_append (fun x hx => ?_) (by simp)
    have hne : x ≠ quote := fun heq => notMem_escape (by decide) hquote (heq ▸ hx)
    simpa using hne
  constructor
  · intro heq
    -- What is read has no quote.
    have hquote : quote ∉ s := by
      intro hmem
      rw [← heq] at hmem
      have hne := List.mem_takeWhile_imp hmem
      simp at hne
    rw [hread hquote] at heq
    exact (escape_eq_iff s).mp heq
  · intro hplain
    have hquote : quote ∉ s := fun hmem => hplain quote hmem (by decide)
    rw [hread hquote]
    exact (escape_eq_iff s).mpr hplain

/-- Under a field name that does not imitate the parameter, a name comes back exactly if nothing in it is
escaped. -/
theorem extractParam_fileHeader {key filename : Bytes} (hkey : ¬Embeds key) (hne : filename ≠ [])
    (mime : Bytes) :
    extractParam (fileHeader key (multipartFilenameEscape filename) mime) filenameText =
        some filename ↔ ∀ c ∈ filename, ¬IsSpecial c := by
  rw [← takeWhile_escape_iff filename (crlf ++ (contentTypeText ++ 0x3A :: 0x20 :: mime)),
    extractParam, behind_fileHeader, behind_of_not_embeds hkey, Option.map_none, Option.none_or,
    Option.bind_some]
  simp only [List.head?_cons, if_true, List.tail_cons, afterQuote]
  split_ifs with hnil
  · rw [hnil]
    exact iff_of_false (by simp) hne.symm
  · rw [Option.some.injEq]

/-- A field name imitates the parameter, and `value` is what is read there. -/
def Imitates (key value : Bytes) : Prop :=
  ∃ r, behind tolower startsParam (filenameText ++ [0x3D]) (some quote) key = some r ∧
    paramValue (r ++ afterKey) = value

theorem takeWhile_append_of_mem {p : UInt8 → Bool} {s : Bytes} {x : UInt8} (hx : x ∈ s)
    (hp : p x = false) (rest : Bytes) : (s ++ rest).takeWhile p = s.takeWhile p := by
  rw [List.takeWhile_append, if_neg]
  intro hlen
  have hall := List.takeWhile_eq_self_iff.mp (List.takeWhile_prefix p |>.eq_of_length hlen) x hx
  rw [hp] at hall
  cases hall

/-- The value that is read in a field name ends before the file name. -/
theorem paramValue_afterKey (r rest : Bytes) :
    paramValue (r ++ (afterKey ++ rest)) = paramValue (r ++ afterKey) := by
  have hhead : (r ++ (afterKey ++ rest)).head? = (r ++ afterKey).head? := by
    cases r <;> rfl
  rw [paramValue, paramValue, hhead]
  split_ifs
  · cases r with
    | nil => exact takeWhile_append_of_mem (x := quote) (by decide) (by decide) rest
    | cons c r =>
        rw [List.cons_append, List.cons_append, List.tail_cons, List.tail_cons, ← List.append_assoc]
        exact takeWhile_append_of_mem (x := quote) (by simp [afterKey]) (by decide) rest
  · rw [← List.append_assoc]
    exact takeWhile_append_of_mem (x := 0x3B) (by simp [afterKey]) (by decide) rest

/-- Under a field name that imitates the parameter, its own value is read. -/
theorem extractParam_of_embeds {key r : Bytes}
    (hr : behind tolower startsParam (filenameText ++ [0x3D]) (some quote) key = some r)
    (filename mime : Bytes) :
    extractParam (fileHeader key filename mime) filenameText =
      if paramValue (r ++ afterKey) = [] then none else some (paramValue (r ++ afterKey)) := by
  rw [extractParam, behind_fileHeader, hr, Option.map_some, Option.some_or, Option.bind_some,
    ← paramValue_afterKey r (afterQuote filename mime)]
  rfl

/-- A field name imitates the parameter exactly if something is found in it. -/
theorem embeds_iff {key : Bytes} : Embeds key ↔
    ∃ r, behind tolower startsParam (filenameText ++ [0x3D]) (some quote) key = some r := by
  constructor
  · rintro ⟨before, c, text, after, heq, hc, htext⟩
    refine Option.ne_none_iff_exists'.mp fun hnone => ?_
    refine (behind_eq_none_iff (by simp)).mp hnone (before ++ [c]) after ⟨text, by simp [heq], htext, ?_⟩
    rw [List.getLast?_concat, Option.some_or]
    simpa [startsParam, or_assoc] using hc
  · rintro ⟨r, hr⟩
    by_contra hno
    rw [behind_of_not_embeds hno] at hr
    cases hr

/-- **The way of a file name.** The parser reads back the name the writer was given exactly if the name
has no quote, backslash or line end and the field name does not imitate the parameter, or else if the
value in a field name that does happens to be the name. -/
theorem filename_round_trip_iff (key filename mime : Bytes) (hne : filename ≠ []) :
    extractParam (fileHeader key (multipartFilenameEscape filename) mime) filenameText =
        some filename ↔
      (¬Embeds key ∧ ∀ c ∈ filename, c ∉ ([quote, 0x5C, 0x0D, 0x0A] : Bytes)) ∨
        Imitates key filename := by
  by_cases hkey : Embeds key
  · obtain ⟨r, hr⟩ := embeds_iff.mp hkey
    have himitates : Imitates key filename ↔ paramValue (r ++ afterKey) = filename := by
      simp only [Imitates, hr, Option.some.injEq, exists_eq_left']
    rw [extractParam_of_embeds hr, himitates]
    simp only [hkey, not_true_eq_false, false_and, false_or]
    split_ifs with hnil
    · rw [hnil]
      exact iff_of_false (by simp) hne.symm
    · rw [Option.some.injEq]
  · have hplain : ¬Imitates key filename := by
      rintro ⟨r, hr, -⟩
      exact hkey (embeds_iff.mpr ⟨r, hr⟩)
    rw [extractParam_fileHeader hkey hne, or_iff_left hplain]
    exact ⟨fun h => ⟨hkey, h⟩, And.right⟩

theorem filename_round_trip_iff_sample :
    extractParam (fileHeader [0x6B] (multipartFilenameEscape [0x61]) [0x74]) filenameText =
      some [0x61] := by
  have hkey : ¬Embeds [0x6B] := by
    rintro ⟨before, c, text, after, heq, -, htext⟩
    have hlen := congrArg List.length heq
    have hlen' := congrArg List.length htext
    simp only [List.length_append, List.length_cons, List.length_map, List.length_nil, filenameText,
      ascii] at hlen hlen'
    omega
  refine (filename_round_trip_iff [0x6B] [0x61] [0x74] (by decide)).mpr (.inl ⟨hkey, ?_⟩)
  decide +kernel

/-- A name with a quote is cut off at it, and the backslash stays. -/
theorem filename_cut_off :
    extractParam (fileHeader [0x6B] (multipartFilenameEscape [0x61, quote, 0x62]) [0x74])
      filenameText = some [0x61, 0x5C] := by
  decide +kernel

/-! ### Text fields -/

/-- Wherever the text `filename=` stands in a header, in any case, an odd number of quotes is in front
of it: it is inside of a quoted value. -/
def QuotedOnly (header : Bytes) : Prop :=
  ∀ i < header.length, startsWith tolower (filenameText ++ [0x3D]) (header.drop i) = true →
    (header.take i).count quote % 2 = 1

instance (header : Bytes) : Decidable (QuotedOnly header) :=
  inferInstanceAs (Decidable (∀ i < header.length, _))

theorem size_put_new {V : Type} (n : ℤ) (key : Bytes) (value : V) :
    ((HashMap.new n : HashMap V).put key value).size = 1 := by
  have hbucket : (HashMap.new n : HashMap V).bucket key = [] := by
    rw [HashMap.bucket, HashMap.new, List.getD_eq_getElem?_getD, List.getElem?_replicate]
    split_ifs <;> rfl
  rw [HashMap.put, hbucket]
  rfl

/-- **Text fields.** A part with a name is stored as a text field, whatever is stored already, exactly
if the first place in its header where `filename=` has a semicolon, a blank or nothing in front of it, if
there is one, is followed by an empty value. Quotes around that place make no difference. -/
theorem text_part_iff (part : Bytes) (sep : ℕ) (hsep : memmem (crlf ++ crlf) part = some sep)
    (name : Bytes)
    (hname : ∃ b, First nameText (cstr (part.take sep)) b ∧ paramValue b = name ∧ name ≠ []) :
    (∀ mp, processPart mp part =
        { mp with fields := mp.fields.put name (cstr (part.drop (sep + 4))) }) ↔
      ∀ b, First filenameText (cstr (part.take sep)) b → paramValue b = [] := by
  have hfield : ∀ mp, processPart mp part =
      (extractParam (cstr (part.take sep)) filenameText).elim
        { mp with fields := mp.fields.put name (cstr (part.drop (sep + 4))) } fun filename =>
          let mime := (extractContentType (cstr (part.take sep))).getD octetStream
          { mp with
            files := mp.files.put name (newHttpMultipartFile filename mime (part.drop (sep + 4))) } := by
    intro mp
    rw [processPart, hsep, Option.elim_some]
    simp only [extractParam_eq_some_iff.mpr hname, Option.elim_some]
  rw [← extractParam_eq_none_iff]
  constructor
  · intro hall
    cases hfile : extractParam (cstr (part.take sep)) filenameText with
    | none => rfl
    | some filename =>
        -- A new result would have a file.
        have hnew := congrArg (fun mp => mp.files.size) (hall .new)
        rw [hfield, hfile, Option.elim_some] at hnew
        have hsize : ((HashMap.new 4).put name (newHttpMultipartFile filename
            ((extractContentType (cstr (part.take sep))).getD octetStream)
            (part.drop (sep + 4)))).size = 0 := hnew
        rw [size_put_new] at hsize
        cases hsize
  · intro hnone mp
    rw [hfield, hnone, Option.elim_none]

/-- A part with the header `;` and a name, and the body `v`. -/
def namedPart (name : Bytes) : Bytes :=
  partText (0x3B :: (nameText ++ 0x3D :: quote :: (name ++ [quote]))) [0x76]

theorem text_part_iff_sample : processPart .new (namedPart [0x61]) =
    { MultipartResult.new with fields := MultipartResult.new.fields.put [0x61] [0x76] } := by
  have hname := extractParam_eq_some_iff.mp
    (show extractParam (cstr ((namedPart [0x61]).take 9)) nameText = some [0x61] by decide +kernel)
  refine (text_part_iff (namedPart [0x61]) 9 (by decide +kernel) [0x61] hname).mpr ?_ .new
  exact extractParam_eq_none_iff.mp (by decide +kernel)

/-- The name `a; filename=b`: the text `filename=` is inside of the quotes only, and the part is stored
as a file. -/
theorem quoted_name_stored_as_file :
    let name := ascii ['a', ';', ' '] ++ filenameText ++ ascii ['=', 'b']
    let header := 0x3B :: (nameText ++ 0x3D :: quote :: (name ++ [quote]))
    let mp := processPart .new (namedPart name)
    QuotedOnly header ∧ extractParam header nameText = some name ∧
      mp.fields.get name = none ∧
      (mp.files.get name).map MultipartFile.filename = some [0x62, quote] := by
  decide +kernel

end Multipart
