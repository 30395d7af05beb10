import LibCore.BoardHandler
import LibCore.PathCanonical
import LibCore.UrlParsers

/-!
# The Board: Uploads on the Disk

`file_sanitize`, `file_save` and `file_delete` of `board_handler.c`. Saving opens the path that is put
together from `base_dir`, `upload_dir` and a new name; deleting puts the same path together again and sends
it through the path validator, which decodes escapes and lets few bytes pass.

The disk is a map from absolute paths, which are the lists of their segments, to the files there. A
relative path is one below the working directory. The clock, the counter of files and the errors of the
system calls come from an environment.

## Main definitions

* `fileSave`, `fileDelete`: the two functions.
* `PlainDir`: the directories that the validator leaves as they are.

## Main results

* `delete_reaches_iff`: a saved file can be deleted exactly when its directory is plain.
-/

open CString Radix PathValidator Multipart BoardHandler

namespace BoardFiles

/-! ### Paths -/

/-- The absolute path that a path denotes. -/
def resolve (cwd : List Bytes) (path : Bytes) : List Bytes :=
  if path.head? = some slash then keep (path.splitOn slash) else cwd ++ keep (path.splitOn slash)

/-- The files. -/
abbrev Disk := List Bytes → Option Bytes

/-- The directories of a `BoardHandler`. -/
structure Dirs where
  baseDir : Bytes
  uploadDir : Bytes

/-- `"%s/%s"` with `base_dir`. -/
def Dirs.absPath (d : Dirs) (path : Bytes) : Bytes := d.baseDir ++ slash :: path

/-! ### `file_sanitize` -/

/-- `strrchr`: the rest of the text from the last `c` on. -/
def strrchr (c : UInt8) : Bytes → Option Bytes
  | [] => none
  | x :: s => (strrchr c s).or (if x = c then some (x :: s) else none)

/-- `untitled.bin`. -/
def untitled : Bytes := ascii ['u', 'n', 't', 'i', 't', 'l', 'e', 'd', '.', 'b', 'i', 'n']

/-- The loop that looks for the last part of a name, behind slashes and backslashes. -/
def baseName (base : Bytes) : Bytes → Bytes
  | [] => base
  | c :: p => baseName (if c = slash ∨ c = 0x5C then p else base) p

/-- `file_sanitize`. -/
def fileSanitize (dirty : Bytes) (maxLen : ℕ) : Bytes :=
  let fallback := (snprintf maxLen untitled).getD []
  ((snprintf (maxPathLen + 2) (slash :: baseName dirty dirty)).bind (validate (maxPathLen + 1))).elim
    fallback fun canonical =>
      let finalName := (strrchr slash canonical).elim canonical (List.drop 1)
      if finalName = [] ∨ finalName = [dot] ∨ finalName = [dot, dot] then fallback
      else (snprintf maxLen finalName).getD fallback

/-! ### `file_save` -/

/-- `ALLOWED_EXT`. -/
def allowedExt : List Bytes :=
  [ascii ['.', 'j', 'p', 'g'], ascii ['.', 'j', 'p', 'e', 'g'], ascii ['.', 'p', 'n', 'g'],
    ascii ['.', 'g', 'i', 'f'], ascii ['.', 'w', 'e', 'b', 'p'], ascii ['.', 'p', 'd', 'f'],
    ascii ['.', 't', 'x', 't'], ascii ['.', 'h', 'w', 'p'], ascii ['.', 'd', 'o', 'c'],
    ascii ['.', 'd', 'o', 'c', 'x'], ascii ['.', 'x', 'l', 's'], ascii ['.', 'x', 'l', 's', 'x'],
    ascii ['.', 'p', 'p', 't'], ascii ['.', 'p', 'p', 't', 'x'], ascii ['.', 'z', 'i', 'p']]

/-- `is_allowed_ext`. -/
def isAllowedExt (ext : Bytes) : Bool := ext ≠ [] && allowedExt.any (strcasecmpEq ext)

/-- `%ld` with leading zeros up to a width. -/
def formatLong (width : ℕ) (v : ℤ) : Bytes :=
  if v < 0 then
    0x2D :: (List.replicate (width - 1 - (decimal v.natAbs).length) 0x30 ++ decimal v.natAbs)
  else List.replicate (width - (decimal v.natAbs).length) 0x30 ++ decimal v.natAbs

/-- What the clock, the counter and the disk answer to `file_save`. -/
structure SaveEnv where
  tvSec : Int64
  tvUsec : Int64
  /-- `BoardHandler_next_file_seq`. -/
  seq : UInt32
  /-- Whether the directory is made or there. -/
  mkdir : Bytes → Bool
  fopen : Bool
  /-- What `fwrite` returns. -/
  written : ℕ
  flushed : Bool
  synced : Bool
  closed : Bool

/-- The name of a new file. -/
def SaveEnv.fileName (env : SaveEnv) (ext : Bytes) : Bytes :=
  formatLong 0 env.tvSec.toInt ++ 0x5F :: formatLong 6 env.tvUsec.toInt ++
    0x5F :: formatLong 4 (env.seq.toNat % 10000 : ℕ) ++ ext

/-- `mkdir_p`. -/
def mkdirP (mkdir : Bytes → Bool) (path : Bytes) : Bool :=
  if path.length ≥ 512 ∨ path = [] then false
  else
    let tmp := if path.getLast? = some slash then path.dropLast else path
    (List.range tmp.length).all (fun i => i = 0 || tmp[i]? ≠ some slash || mkdir (tmp.take i)) && mkdir tmp

/-- `file_save`: the path it leaves, unless it returns false, and the disk. -/
def fileSave (cwd : List Bytes) (d : Dirs) (env : SaveEnv) (attach : MultipartFile) (outSize : ℕ)
    (disk : Disk) : Option Bytes × Disk :=
  let data := attach.data.getD []
  if data = [] then (none, disk)
  else
    match strrchr dot (fileSanitize attach.filename 256) with
    | none => (none, disk)
    | some ext =>
        if !isAllowedExt ext then (none, disk)
        else
          match snprintf outSize (d.uploadDir ++ slash :: env.fileName ext) with
          | none => (none, disk)
          | some outPath =>
              match snprintf 1024 (d.absPath outPath), snprintf 1024 (d.absPath d.uploadDir) with
              | some absPath, some absDir =>
                  if !mkdirP env.mkdir absDir then (none, disk)
                  else if !env.fopen then (none, disk)
                  else if env.flushed && env.synced && env.closed && env.written = data.length then
                    (some outPath, Function.update disk (resolve cwd absPath) (some data))
                  else (none, Function.update disk (resolve cwd absPath) none)
              | _, _ => (none, disk)

/-! ### `file_delete` -/

/-- The path `file_delete` hands to `lstat` and `remove`. -/
def deleteTarget (d : Dirs) (path : Bytes) : Option Bytes :=
  if path = [] then none
  else (snprintf 1024 (d.absPath path)).bind (validate (maxPathLen + 1))

/-- The errors of `lstat` and `remove`, other than that there is no such file. -/
structure DeleteEnv where
  lstatFails : Bool
  removeFails : Bool

/-- `file_delete`: what it returns, and the disk. -/
def fileDelete (cwd : List Bytes) (d : Dirs) (env : DeleteEnv) (path : Bytes) (disk : Disk) :
    Bool × Disk :=
  (deleteTarget d path).elim (false, disk) fun canonical =>
    if env.lstatFails then (false, disk)
    else if disk (resolve cwd canonical) = none then (true, disk)
    else if env.removeFails then (false, disk)
    else (true, Function.update disk (resolve cwd canonical) none)

/-! ### Directories -/

/-- A directory that the validator leaves as it is, and that has room for one more segment. -/
structure PlainDir (dir : Bytes) : Prop where
  absolute : dir.head? = some slash
  bytes : ∀ c ∈ dir, byteAllowed c false = true
  no_dotdot : ∀ s ∈ dir.splitOn slash, s ≠ [dot, dot]
  segment_le : ∀ s ∈ dir.splitOn slash, s.length ≤ maxSegmentLen
  count_lt : (keep (dir.splitOn slash)).length < maxSegments
  utf8 : rule02CheckUtf8 dir = true

/-- An ASCII byte the validator lets pass, within a segment. -/
def PlainByte (c : UInt8) : Prop := byteAllowed c false = true ∧ c < 0x80 ∧ c ≠ slash

instance (c : UInt8) : Decidable (PlainByte c) := inferInstanceAs (Decidable (_ ∧ _))

/-- A name that is one plain segment. -/
structure PlainName (name : Bytes) : Prop where
  bytes : ∀ c ∈ name, PlainByte c
  ne_nil : name ≠ []
  ne_dot : name ≠ [dot]
  ne_dotdot : name ≠ [dot, dot]
  length_le : name.length ≤ maxSegmentLen

/-! ### The UTF-8 rule and slashes -/

theorem rule02_cons_ascii {c : UInt8} (hc : c < 0x80) (s : Bytes) :
    rule02CheckUtf8 (c :: s) = rule02CheckUtf8 s := by
  rw [rule02CheckUtf8.eq_def]
  exact if_pos hc

/-- A slash ends every character. -/
theorem rule02_append_slash (s t : Bytes) :
    rule02CheckUtf8 (s ++ slash :: t) = (rule02CheckUtf8 s && rule02CheckUtf8 t) := by
  have hslash : Utf8.isCont slash = false := by decide
  fun_induction rule02CheckUtf8 s with
  | case1 => rw [List.nil_append, rule02_cons_ascii (by decide), Bool.true_and]
  | case5 a s hascii htwo hshort =>
      cases s with
      | nil =>
          rw [List.cons_append, List.nil_append, rule02CheckUtf8.eq_def]
          simp only [hascii, htwo, hslash, if_false, if_true, Bool.not_false, Bool.or_true, Bool.false_and]
      | cons b s => exact (hshort b s rfl).elim
  | case10 a s hascii htwo hthree hshort =>
      match s, hshort with
      | [], _ =>
          rw [List.cons_append, List.nil_append, rule02CheckUtf8.eq_def]
          cases t <;> simp only [hascii, htwo, hthree, hslash, if_false, if_true, Bool.not_false,
            Bool.true_or, Bool.false_and]
      | [b], _ =>
          rw [List.cons_append, List.cons_append, List.nil_append, rule02CheckUtf8.eq_def]
          simp only [hascii, htwo, hthree, hslash, if_false, if_true, Bool.not_false, Bool.or_true,
            Bool.false_and]
      | b :: c :: s, hshort => exact (hshort b c s rfl).elim
  | case15 a s hascii htwo hthree hfour hshort =>
      match s, hshort with
      | [], _ =>
          rw [List.cons_append, List.nil_append, rule02CheckUtf8.eq_def]
          match t with
          | [] | [_] => simp only [hascii, htwo, hthree, hfour, if_false, if_true, Bool.false_and]
          | c :: d :: t =>
              simp only [hascii, htwo, hthree, hfour, hslash, if_false, if_true, Bool.not_false,
                Bool.true_or, Bool.false_and]
      | [b], _ =>
          rw [List.cons_append, List.cons_append, List.nil_append, rule02CheckUtf8.eq_def]
          cases t <;> simp only [hascii, htwo, hthree, hfour, hslash, if_false, if_true, Bool.not_false,
            Bool.true_or, Bool.or_true, Bool.false_and]
      | [b, c], _ =>
          rw [List.cons_append, List.cons_append, List.cons_append, List.nil_append, rule02CheckUtf8.eq_def]
          simp only [hascii, htwo, hthree, hfour, hslash, if_false, if_true, Bool.not_false, Bool.or_true,
            Bool.false_and]
      | b :: c :: d :: s, hshort => exact (hshort b c d s rfl).elim
  | _ =>
      -- the whole character lies before the slash
      simp only [List.cons_append]
      rw [rule02CheckUtf8.eq_def]
      simp only [*, if_true, if_false, Bool.false_and, Bool.false_eq_true]

theorem rule02_intercalate (segs : List Bytes) :
    rule02CheckUtf8 ([slash].intercalate segs) = true ↔ ∀ s ∈ segs, rule02CheckUtf8 s = true := by
  induction segs with
  | nil => simp [List.intercalate, rule02CheckUtf8]
  | cons s segs ih =>
      by_cases hnil : segs = []
      · simp [hnil]
      · rw [List.intercalate_cons_of_ne_nil hnil, List.append_assoc, List.singleton_append,
          rule02_append_slash, Bool.and_eq_true, ih, List.forall_mem_cons]

/-- The rule looks at the segments that are kept. -/
theorem rule02_join_keep (path : Bytes) :
    rule02CheckUtf8 (join (keep (path.splitOn slash))) = rule02CheckUtf8 path := by
  rw [Bool.eq_iff_iff, join, ← List.nil_append (slash :: _), rule02_append_slash, Bool.and_eq_true,
    rule02_intercalate]
  conv_rhs => rw [← @List.intercalate_splitOn _ path _ _ slash, rule02_intercalate]
  constructor
  · rintro ⟨-, h⟩ s hs
    by_cases hkept : s ≠ [] ∧ s ≠ [dot]
    · exact h s (List.mem_filter.mpr ⟨hs, by simpa using hkept⟩)
    · rw [not_and_or, not_not, not_not] at hkept
      rcases hkept with rfl | rfl <;> decide
  · exact fun h => ⟨rfl, fun s hs => h s (List.mem_filter.mp hs).1⟩

/-! ### What the validator makes of a path -/

/-- A canonical path denotes the segments that are kept. -/
theorem resolve_canonical {raw c : Bytes} (h : Canonical raw c) (cwd : List Bytes) :
    resolve cwd c = keep (segments raw) := by
  have hkept : ∀ s ∈ keep (segments raw), PlainSegment s := fun s hs => (h.mem_keep hs).1
  rw [resolve, h.eq_join, if_pos (by rw [join]; rfl)]
  by_cases hnil : keep (segments raw) = []
  · rw [hnil]
    rfl
  · rw [splitOn_join hnil fun s hs => (hkept s hs).2.2.2, keep, List.filter_cons_of_neg (by simp),
      List.filter_eq_self]
    intro s hs
    simpa using ⟨(hkept s hs).1, (hkept s hs).2.1⟩

/-- Without escapes the segments are those that are written. -/
theorem segments_of_no_percent {raw : Bytes} (h : 0x25 ∉ raw) : segments raw = raw.splitOn slash := by
  rw [segments, (decodePath_of_no_percent h).2, List.map_map]
  exact congrArg _ (List.map_id raw)

/-- The validator leaves what a path denotes exactly when it has no escapes. -/
theorem resolve_canonical_eq_iff {raw c : Bytes} (h : Canonical raw c) (cwd : List Bytes) :
    resolve cwd c = resolve cwd raw ↔ 0x25 ∉ raw := by
  rw [resolve_canonical h, resolve, if_pos h.absolute]
  constructor
  · intro heq hmem
    obtain ⟨s, hs, hpercent⟩ := exists_mem_splitOn hmem (by decide)
    have hkept : s ∈ keep (raw.splitOn slash) := by
      refine List.mem_filter.mpr ⟨hs, ?_⟩
      have hnil : s ≠ [] := List.ne_nil_of_mem hpercent
      have hdot : s ≠ [dot] := by
        rintro rfl
        cases List.mem_singleton.mp hpercent
      simp [hnil, hdot]
    rw [← heq] at hkept
    have hbyte := (h.mem_keep hkept).2.2 _ hpercent
    rw [← byteAllowed_iff] at hbyte
    exact absurd hbyte (by decide)
  · exact fun hno => by rw [segments_of_no_percent hno]

section Directory

variable {dir name : Bytes}

/-- The segments of a file in a directory. -/
theorem splitOn_file (hname : PlainName name) :
    (dir ++ slash :: name).splitOn slash = dir.splitOn slash ++ [name] := by
  rw [List.splitOn_append_cons_self, List.splitOn_eq_singleton fun h => (hname.bytes _ h).2.2 rfl]

theorem keep_file (hname : PlainName name) :
    keep ((dir ++ slash :: name).splitOn slash) = keep (dir.splitOn slash) ++ [name] := by
  rw [splitOn_file hname, keep, List.filter_append, ← keep]
  simp [hname.ne_nil, hname.ne_dot]

/-- ASCII is UTF-8. -/
theorem rule02_of_ascii {s : Bytes} (h : ∀ c ∈ s, c < 0x80) : rule02CheckUtf8 s = true := by
  induction s with
  | nil => rfl
  | cons c s ih =>
      rw [List.forall_mem_cons] at h
      rw [rule02_cons_ascii h.1, ih h.2]

/-- The validator takes a file and leaves what its path denotes exactly in a plain directory. -/
theorem canonical_file_iff (hname : PlainName name) (hdir : dir ≠ [])
    (hlen : (dir ++ slash :: name).length ≤ maxPathLen) (cwd : List Bytes) :
    (∃ c, Canonical (dir ++ slash :: name) c ∧ resolve cwd c = resolve cwd (dir ++ slash :: name)) ↔
      PlainDir dir := by
  have hutf8 : rule02CheckUtf8 (dir ++ slash :: name) = rule02CheckUtf8 dir := by
    rw [rule02_append_slash, rule02_of_ascii fun c hc => (hname.bytes c hc).2.1, Bool.and_true]
  have hhead : (dir ++ slash :: name).head? = dir.head? := List.head?_append_of_ne_nil _ hdir
  constructor
  · rintro ⟨c, hc, heq⟩
    have hno := (resolve_canonical_eq_iff hc cwd).mp heq
    have hsegs := segments_of_no_percent hno
    have hcount := hc.count_le
    have hrule := hc.utf8
    rw [hsegs, keep_file hname, List.length_append, List.length_singleton] at hcount
    rw [hsegs, rule02_join_keep, hutf8] at hrule
    refine ⟨hhead ▸ hc.absolute, fun b hb => ?_, fun s hs => ?_, fun s hs => ?_, hcount, hrule⟩
    · rw [byteAllowed_iff]
      refine hc.bytes (b, false) ?_
      rw [(decodePath_of_no_percent hno).2]
      exact List.mem_map_of_mem (List.mem_append_left _ hb)
    · exact hc.no_dotdot s (by rw [hsegs, splitOn_file hname]; exact List.mem_append_left _ hs)
    · exact hc.segment_le s (by rw [hsegs, splitOn_file hname]; exact List.mem_append_left _ hs)
  · intro h
    have hbytes : ∀ b ∈ dir ++ slash :: name, byteAllowed b false = true := by
      intro b hb
      rcases List.mem_append.mp hb with hb | hb
      · exact h.bytes b hb
      · rcases List.mem_cons.mp hb with rfl | hb
        · decide
        · exact (hname.bytes b hb).1
    have hno : 0x25 ∉ dir ++ slash :: name := fun hmem => absurd (hbytes _ hmem) (by decide)
    have hsegs := segments_of_no_percent hno
    have hmem : ∀ s ∈ segments (dir ++ slash :: name), s ∈ dir.splitOn slash ∨ s = name := by
      intro s hs
      rw [hsegs, splitOn_file hname] at hs
      simpa using hs
    have hcanonical : Canonical (dir ++ slash :: name) (join (keep (segments (dir ++ slash :: name)))) :=
      { ne_nil := by simp
        length_le := hlen
        absolute := hhead.trans h.absolute
        escapes := (decodePath_of_no_percent hno).1
        bytes := by
          rw [(decodePath_of_no_percent hno).2]
          exact List.forall_mem_map.mpr fun b hb => (byteAllowed_iff b false).mp (hbytes b hb)
        no_dotdot := fun s hs => by
          rcases hmem s hs with hs | rfl
          · exact h.no_dotdot s hs
          · exact hname.ne_dotdot
        segment_le := fun s hs => by
          rcases hmem s hs with hs | rfl
          · exact h.segment_le s hs
          · exact hname.length_le
        count_le := by
          rw [hsegs, keep_file hname, List.length_append, List.length_singleton]
          exact h.count_lt
        utf8 := by
          rw [hsegs, rule02_join_keep, hutf8]
          exact h.utf8
        eq_join := rfl }
    exact ⟨_, hcanonical, (resolve_canonical_eq_iff hcanonical cwd).mpr hno⟩

end Directory

/-! ### Names of new files -/

theorem plainByte_of_isAlnum {c : UInt8} (h : isAlnum c = true) : PlainByte c := by
  have hrange : c < 0x80 ∧ c ≠ slash := by
    simp only [isAlnum, Bool.or_eq_true, Bool.and_eq_true, decide_eq_true_eq] at h
    grind
  exact ⟨(byteAllowed_iff c false).mpr ⟨.inr (.inl h), by simp⟩, hrange⟩

theorem plainByte_of_isdigit {c : UInt8} (h : isdigit c = true) : PlainByte c :=
  plainByte_of_isAlnum (by simp [isAlnum, isdigit_eq_true_iff.mp h])

/-- The bytes of a formatted number. -/
theorem plainByte_of_mem_formatLong {width : ℕ} {v : ℤ} {c : UInt8} (hc : c ∈ formatLong width v) :
    PlainByte c := by
  have hdigits : ∀ n, c ∈ List.replicate n 0x30 ++ decimal v.natAbs → PlainByte c := by
    intro n hmem
    rcases List.mem_append.mp hmem with hmem | hmem
    · rw [List.eq_of_mem_replicate hmem]
      decide
    · exact plainByte_of_isdigit (isdigit_of_mem_decimal hmem)
  rw [formatLong] at hc
  split_ifs at hc
  · rcases List.mem_cons.mp hc with rfl | hc
    · decide
    · exact hdigits _ hc
  · exact hdigits _ hc

theorem length_formatLong_le {width : ℕ} {v : ℤ} (hv : v.natAbs < 10 ^ 19) (hw : width ≤ 20) :
    (formatLong width v).length ≤ 20 := by
  have hlen := length_decimal_le (by decide) hv
  rw [formatLong]
  split_ifs
  · rw [List.length_cons, List.length_append, List.length_replicate]
    omega
  · rw [List.length_append, List.length_replicate]
    omega

theorem natAbs_toInt_lt (x : Int64) : x.toInt.natAbs < 10 ^ 19 := by
  have hlow := Int64.le_toInt x
  have hhigh := Int64.toInt_lt x
  omega

/-- An extension is plain, in either case of its letters. -/
theorem plainByte_of_tolower {c : UInt8} (h : PlainByte (tolower c)) : PlainByte c := by
  rw [tolower] at h
  split_ifs at h with hupper
  · exact plainByte_of_isAlnum (by simp [isAlnum, hupper])
  · exact h

theorem plain_allowedExt : ∀ a ∈ allowedExt, (∀ c ∈ a.map tolower, PlainByte c) ∧ a.length ≤ 5 := by
  decide +kernel

theorem plainByte_of_allowedExt {ext : Bytes} (h : isAllowedExt ext = true) :
    (∀ c ∈ ext, PlainByte c) ∧ ext.length ≤ 5 := by
  simp only [isAllowedExt, Bool.and_eq_true, List.any_eq_true, strcasecmpEq, decide_eq_true_eq] at h
  obtain ⟨-, a, ha, heq⟩ := h
  obtain ⟨hplain, hlen⟩ := plain_allowedExt a ha
  constructor
  · intro c hc
    exact plainByte_of_tolower (hplain _ (heq ▸ List.mem_map_of_mem hc))
  · rwa [← List.length_map tolower, heq, List.length_map]

/-- The name of a new file is one plain segment. -/
theorem plainName_fileName (env : SaveEnv) {ext : Bytes} (h : isAllowedExt ext = true) :
    PlainName (env.fileName ext) := by
  obtain ⟨hext, hextLen⟩ := plainByte_of_allowedExt h
  have hunderscore : 0x5F ∈ env.fileName ext := by simp [SaveEnv.fileName]
  constructor
  · intro c hc
    simp only [SaveEnv.fileName, List.mem_append, List.mem_cons] at hc
    rcases hc with ((hc | rfl | hc) | rfl | hc) | hc
    · exact plainByte_of_mem_formatLong hc
    · decide
    · exact plainByte_of_mem_formatLong hc
    · decide
    · exact plainByte_of_mem_formatLong hc
    · exact hext c hc
  · exact List.ne_nil_of_mem hunderscore
  · intro heq
    rw [heq] at hunderscore
    revert hunderscore
    decide
  · intro heq
    rw [heq] at hunderscore
    revert hunderscore
    decide
  · have hsec := length_formatLong_le (natAbs_toInt_lt env.tvSec) (Nat.zero_le 20)
    have husec := length_formatLong_le (natAbs_toInt_lt env.tvUsec) (show 6 ≤ 20 by omega)
    have hseq := @length_formatLong_le 4 (env.seq.toNat % 10000 : ℕ) (by omega) (by omega)
    simp only [SaveEnv.fileName, List.length_append, List.length_cons, maxSegmentLen]
    omega

/-! ### Saving and deleting -/

section Files

variable {cwd : List Bytes} {d : Dirs} {env : SaveEnv} {attach : MultipartFile} {outSize : ℕ}
  {disk disk' : Disk} {path : Bytes}

theorem snprintf_eq_some {size : ℕ} {s t : Bytes} (h : snprintf size s = some t) :
    s.length < size ∧ t = s := by
  rw [snprintf] at h
  split_ifs at h with hlt
  exact ⟨hlt, (Option.some.inj h).symm⟩

/-- What `file_save` has done when it returns true. -/
theorem fileSave_eq_some (h : fileSave cwd d env attach outSize disk = (some path, disk')) :
    ∃ ext, isAllowedExt ext = true ∧ path = d.uploadDir ++ slash :: env.fileName ext ∧
      (d.absPath path).length < 1024 ∧
      disk' = Function.update disk (resolve cwd (d.absPath path)) attach.data ∧ attach.data ≠ none := by
  have hdata : attach.data.getD [] ≠ [] → attach.data = some (attach.data.getD []) := by
    cases attach.data <;> simp
  simp only [fileSave] at h
  split at h
  · cases h
  · next hne =>
    split at h
    · cases h
    · next ext _ =>
      split at h
      · cases h
      · next hext =>
        split at h
        · cases h
        · next outPath hout =>
          split at h
          · next absPath absDir habs _ =>
            obtain ⟨-, rfl⟩ := snprintf_eq_some hout
            obtain ⟨hlen, rfl⟩ := snprintf_eq_some habs
            split_ifs at h
            · cases h
            · cases h
            · obtain ⟨hpath, rfl⟩ := Prod.mk.inj h
              obtain rfl := Option.some.inj hpath
              refine ⟨ext, by simpa using hext, rfl, hlen, ?_, ?_⟩
              · rw [← hdata hne]
              · rw [hdata hne]
                exact Option.some_ne_none _
            · cases h
          · cases h

/-- The directory of the uploads. -/
def Dirs.uploads (d : Dirs) : Bytes := d.absPath d.uploadDir

/-- **Deleting what was saved.** Behind every `file_save` that returns true, `file_delete` hands the very
file to the system, and without errors of the system removes it, exactly when the directory of the uploads
is an absolute path of plain bytes, without `..`, and with room for one more segment. -/
theorem delete_reaches_iff (h : fileSave cwd d env attach outSize disk = (some path, disk')) :
    ((∃ c, deleteTarget d path = some c ∧ resolve cwd c = resolve cwd (d.absPath path)) ∧
        (fileDelete cwd d ⟨false, false⟩ path disk').2 (resolve cwd (d.absPath path)) = none) ↔
      PlainDir d.uploads := by
  obtain ⟨ext, hext, hpath, hlen, rfl, hsome⟩ := fileSave_eq_some h
  have hfile : d.absPath path = d.uploads ++ slash :: env.fileName ext := by
    simp [hpath, Dirs.uploads, Dirs.absPath]
  have hne : path ≠ [] := by simp [hpath]
  have htarget : ∀ c, deleteTarget d path = some c ↔ Canonical (d.absPath path) c := by
    intro c
    rw [deleteTarget, if_neg hne, snprintf, if_pos hlen, Option.bind_some]
    exact validate_eq_some_iff (Nat.lt_succ_self _) _ _
  have hreach := canonical_file_iff (plainName_fileName env hext)
    (show d.uploads ≠ [] by simp [Dirs.uploads, Dirs.absPath])
    (show (d.uploads ++ slash :: env.fileName ext).length ≤ maxPathLen by
      rw [← hfile, maxPathLen]; omega) cwd
  rw [← hfile] at hreach
  simp only [htarget]
  rw [← hreach]
  refine ⟨And.left, fun hplain => ⟨hplain, ?_⟩⟩
  obtain ⟨c, hc, heq⟩ := hplain
  rw [fileDelete, (htarget c).mpr hc, Option.elim_some, heq]
  simp [hsome]

end Files

/-- The directories of the example server, which its configuration leaves at their defaults. -/
def exampleDirs : Dirs := ⟨[dot], ascii ['u', 'p', 'l', 'o', 'a', 'd', 's']⟩

/-- A system without errors. -/
def sampleEnv : SaveEnv := ⟨7, 0, 0, fun _ => true, true, 1, true, true, true⟩

/-- The file `a.txt` with one byte. -/
def sampleAttach : MultipartFile := newHttpMultipartFile (ascii ['a', '.', 't', 'x', 't']) [] [0x78]

/-- With its default directories the server saves the file, and can never delete it. -/
theorem upload_not_deleted :
    ∃ path disk, fileSave [] exampleDirs sampleEnv sampleAttach 512 (fun _ => none) = (some path, disk) ∧
      deleteTarget exampleDirs path = none ∧
      (fileDelete [] exampleDirs ⟨false, false⟩ path disk).2 (resolve [] (exampleDirs.absPath path)) =
        some [0x78] := by
  obtain ⟨path, hpath⟩ : ∃ path,
      (fileSave [] exampleDirs sampleEnv sampleAttach 512 fun _ => none).1 = some path :=
    Option.isSome_iff_exists.mp (by decide)
  have hsave : fileSave [] exampleDirs sampleEnv sampleAttach 512 (fun _ => none) =
      (some path, (fileSave [] exampleDirs sampleEnv sampleAttach 512 fun _ => none).2) :=
    Prod.ext hpath rfl
  have htarget : deleteTarget exampleDirs path = none := by
    -- the path that is put together starts with a dot
    refine Option.eq_none_iff_forall_ne_some.mpr fun c hc => ?_
    rw [deleteTarget] at hc
    split_ifs at hc
    obtain ⟨raw, hraw, hvalid⟩ := Option.bind_eq_some_iff.mp hc
    obtain ⟨-, rfl⟩ := snprintf_eq_some hraw
    have habs := ((validate_eq_some_iff (Nat.lt_succ_self _) _ _).mp hvalid).absolute
    exact absurd (Option.some.inj habs) (by decide)
  refine ⟨path, _, hsave, htarget, ?_⟩
  obtain ⟨ext, -, -, -, hdisk, -⟩ := fileSave_eq_some hsave
  rw [fileDelete, htarget, hdisk]
  simp [sampleAttach, newHttpMultipartFile]

/-- Directories that are plain. -/
def plainDirs : Dirs := ⟨ascii ['/', 's', 'r', 'v'], ascii ['u', 'p']⟩

theorem delete_reaches_sample :
    ∃ path disk, fileSave [] plainDirs sampleEnv sampleAttach 512 (fun _ => none) = (some path, disk) ∧
      (fileDelete [] plainDirs ⟨false, false⟩ path disk).2 (resolve [] (plainDirs.absPath path)) = none := by
  obtain ⟨path, hpath⟩ : ∃ path,
      (fileSave [] plainDirs sampleEnv sampleAttach 512 fun _ => none).1 = some path :=
    Option.isSome_iff_exists.mp (by decide)
  have hsave : fileSave [] plainDirs sampleEnv sampleAttach 512 (fun _ => none) =
      (some path, (fileSave [] plainDirs sampleEnv sampleAttach 512 fun _ => none).2) :=
    Prod.ext hpath rfl
  have hplain : PlainDir plainDirs.uploads := by
    constructor <;> decide +kernel
  exact ⟨path, _, hsave, ((delete_reaches_iff hsave).mpr hplain).2⟩

end BoardFiles
