import Mathlib.Data.Set.Finite.List
import LibCore.SnmpRoundTrip

/-!
# Walking an SNMP Agent

`snmpWalk` of `coresnmp.c` asks an agent for the bindings behind the last one it has seen,
until a reply leaves the subtree of the root or an error ends the walk. The agent is an
arbitrary sequence of replies. Allocation succeeds; `self`, `ip`, `root_oid` and `out_all` are
not `NULL`.

The loops of the source need not end for every input, so they are given fuel here; a walk that
would go on without end is `none` for every fuel.

## Main definitions

* `isPrefixMatch`, `oidCompareNumeric`: the two tests on dotted texts.
* `sendGetBulk`, `bulkLoop`, `walkLoop`, `snmpWalk`: the walk.

## Main results

* `oidCompareNumeric_eq`: the comparison is the lexicographic order of the arcs.
* `snmpWalk_safe`: the walk ends, and what it appends is strictly increasing, below the root
  and free of duplicates.
-/

open CString Radix Asn1

namespace Snmp

/-! ### The model -/

/-- `SnmpVersion`. -/
inductive Version
  | v1
  | v2c
  | v3
deriving DecidableEq

/-- The fields of a `CoreSnmp` that a walk reads; `sender` says whether `snmp_sender` is set. -/
structure CoreSnmp where
  sender : Bool
  version : Version
  community : Bytes
  username : Bytes

/-- The values of `ErrorCode` that a walk returns. -/
inductive ErrorCode
  | ok
  | invalid
  | netConnect
  | netTimeout
deriving DecidableEq

/-- What the socket does with a request: sending fails, no datagram comes, or one does. -/
inductive Reply
  | sendFails
  | silent
  | datagram (bytes : Bytes)

/-- `get_version_val`. -/
def getVersionVal : Version → ℤ
  | .v3 => 3
  | .v2c => 1
  | .v1 => 0

/-- `get_sec_name`. -/
def getSecName (self : CoreSnmp) : Bytes :=
  if self.version = .v3 then self.username else self.community

/-- `sendGetBulk_impl`: what it returns, and `out_varbinds` afterwards. A datagram is cut at
the size of the buffer, and an empty one counts as none. -/
def sendGetBulk (self : CoreSnmp) (oid : Bytes) (nonRepeaters maxRepetitions : ℤ) (reply : Reply)
    (outVarbinds : List VarBind) : ErrorCode × List VarBind :=
  if !self.sender then (.invalid, outVarbinds)
  else
    match snmpAsnEncodePdu 1024 0xA5 (getVersionVal self.version) (getSecName self) oid nonRepeaters
        maxRepetitions none with
    | none => (.invalid, outVarbinds)
    | some _ =>
        match reply with
        | .sendFails => (.netConnect, outVarbinds)
        | .silent => (.netTimeout, outVarbinds)
        | .datagram bytes =>
            let raw := bytes.take 65535
            if raw = [] then (.netTimeout, outVarbinds)
            else
              match snmpAsnDecodeResponse raw outVarbinds with
              | (false, vbs) => (.netTimeout, vbs)
              | (true, vbs) => if vbs = [] then (.netTimeout, vbs) else (.ok, vbs)

/-- `is_prefix_match`. -/
def isPrefixMatch (rootOid currentOid : Bytes) : Bool :=
  if currentOid.length < rootOid.length then false
  else currentOid.take rootOid.length = rootOid &&
    (currentOid.length = rootOid.length || currentOid[rootOid.length]? = some 0x2E)

/-- The end of a component: a dot is skipped. -/
def skipDot (s : Bytes) : Bytes := if s.head? = some 0x2E then s.drop 1 else s

/-- The loop of `oid_compare_numeric`, for at most `fuel` rounds. -/
def oidCompareLoop : ℕ → Bytes → Bytes → Option ℤ
  | 0, _, _ => none
  | fuel + 1, oid1, oid2 =>
      if oid1 ≠ [] ∧ oid2 ≠ [] then
        let (v1, _, end1) := strtoul oid1
        let (v2, _, end2) := strtoul oid2
        if v1 ≠ v2 then some (if v1 < v2 then -1 else 1)
        else oidCompareLoop fuel (skipDot end1) (skipDot end2)
      else if oid1.head? = oid2.head? then some 0
      else some (if oid1 ≠ [] then 1 else -1)

/-- `oid_compare_numeric`. A round that reads no character of either text is repeated forever;
every other one shortens them. -/
def oidCompareNumeric (oid1 oid2 : Bytes) : Option ℤ :=
  oidCompareLoop (oid1.length + oid2.length + 1) oid1 oid2

/-- Where a walk stands: `last_oid` and `out_all`. -/
structure Cursor where
  lastOid : Bytes
  outAll : List VarBind

/-- The loop over the bindings of a reply: `keep` at its end, or `some none` for the return of
`ERR_INVALID`. -/
def bulkLoop (rootOid : Bytes) : List VarBind → Bool → Cursor → Option (Option Bool × Cursor)
  | [], keep, c => some (some keep, c)
  | vb :: bulk, _, c =>
      if vb.tag = 0x82 then some (some false, c)
      else if !isPrefixMatch rootOid vb.oid then some (some false, c)
      else
        match oidCompareNumeric vb.oid c.lastOid with
        | none => none
        | some r =>
            if r ≤ 0 then some (none, c)
            else
              match newSnmpVarBind vb.tag vb.oid vb.valueStr with
              | none => some (none, c)
              | some copy => bulkLoop rootOid bulk true ⟨vb.oid.take (oidStrCap - 1), c.outAll ++ [copy]⟩

/-- The loop of `snmpWalk_impl`, for at most `fuel` requests, of which `i` have been made. -/
def walkLoop (self : CoreSnmp) (rootOid : Bytes) (replies : ℕ → Reply) :
    ℕ → ℕ → Cursor → Option (ErrorCode × List VarBind)
  | 0, _, _ => none
  | fuel + 1, i, c =>
      match sendGetBulk self c.lastOid 0 32 (replies i) [] with
      | (.ok, bulk) =>
          match bulkLoop rootOid bulk false c with
          | none => none
          | some (none, c) => some (.invalid, c.outAll)
          | some (some true, c) => walkLoop self rootOid replies fuel (i + 1) c
          | some (some false, c) => some (.ok, c.outAll)
      | (ret, _) => some (ret, c.outAll)

/-- `snmpWalk_impl` with at most `fuel` requests: what it returns, and `out_all` afterwards. -/
def snmpWalk (self : CoreSnmp) (fuel : ℕ) (rootOid : Bytes) (replies : ℕ → Reply)
    (outAll : List VarBind) : Option (ErrorCode × List VarBind) :=
  if rootOid.length ≥ oidStrCap then some (.invalid, outAll)
  else walkLoop self rootOid replies fuel 0 ⟨rootOid.take (oidStrCap - 1), outAll⟩

/-! ### Numeric comparison -/

/-- A component of a dotted text: decimal digits, perhaps with leading zeros. -/
def IsComponent (c : Bytes) : Prop := c ≠ [] ∧ ∀ x ∈ c, isdigit x = true

/-- A dotted text whose arcs `strtoul` can hold. -/
def OidText (s : Bytes) : Prop :=
  (∃ comps : List Bytes, comps ≠ [] ∧ (∀ c ∈ comps, IsComponent c) ∧ s = dotted comps) ∧
    ∀ a ∈ dottedArcs s, a ≤ sizeMax

/-- The sign of a lexicographic comparison. -/
def lexSign (xs ys : List ℕ) : ℤ := if xs < ys then -1 else if xs = ys then 0 else 1

theorem strtoul_component {c : Bytes} (hc : IsComponent c) (hmax : decimalValue c ≤ sizeMax)
    (rest : Bytes) (hrest : rest.takeWhile isdigit = []) :
    strtoul (c ++ rest) = (decimalValue c, false, rest) := by
  obtain ⟨hne, hdigits⟩ := hc
  have htake : (c ++ rest).takeWhile isdigit = c := by
    rw [List.takeWhile_append_of_pos hdigits, hrest, List.append_nil]
  have hdrop : (c ++ rest).dropWhile isdigit = rest := by
    rw [List.dropWhile_append_of_pos hdigits]
    have := List.takeWhile_append_dropWhile (p := isdigit) (l := rest)
    rwa [hrest, List.nil_append] at this
  obtain ⟨x, t, rfl⟩ := List.exists_cons_of_ne_nil hne
  rw [List.cons_append, strtoul_digit (hdigits x (by simp)), ← List.cons_append, htake, hdrop,
    if_neg (by omega)]

/-- `strtoul` reads the first component of a dotted text, and the dot behind it is skipped. -/
theorem strtoul_dotted {c : Bytes} (hc : IsComponent c) (hmax : decimalValue c ≤ sizeMax)
    (comps : List Bytes) :
    ∃ rest, strtoul (dotted (c :: comps)) = (decimalValue c, false, rest) ∧
      skipDot rest = dotted comps := by
  cases comps with
  | nil =>
      refine ⟨[], ?_, rfl⟩
      have := strtoul_component hc hmax [] rfl
      rw [List.append_nil] at this
      rw [dotted, List.intercalate_singleton, this]
  | cons d comps =>
      refine ⟨0x2E :: dotted (d :: comps), ?_, rfl⟩
      rw [dotted, List.intercalate_cons_cons, ← dotted, List.append_assoc, List.singleton_append]
      exact strtoul_component hc hmax _ rfl

theorem dotted_ne_nil {c : Bytes} (hc : c ≠ []) (comps : List Bytes) : dotted (c :: comps) ≠ [] := by
  rw [dotted_cons]
  simp [hc]

/-- The loop compares component by component. -/
theorem oidCompareLoop_eq {cs ds : List Bytes} (hcs : ∀ c ∈ cs, IsComponent c ∧
    decimalValue c ≤ sizeMax) (hds : ∀ d ∈ ds, IsComponent d ∧ decimalValue d ≤ sizeMax) {fuel : ℕ}
    (hfuel : cs.length < fuel) :
    oidCompareLoop fuel (dotted cs) (dotted ds) =
      some (lexSign (cs.map decimalValue) (ds.map decimalValue)) := by
  induction cs generalizing ds fuel with
  | nil =>
      obtain ⟨fuel, rfl⟩ : ∃ k, fuel = k + 1 := ⟨fuel - 1, by omega⟩
      cases ds with
      | nil => rfl
      | cons d ds =>
          have hne := dotted_ne_nil (hds d (by simp)).1.1 ds
          obtain ⟨x, t, ht⟩ := List.exists_cons_of_ne_nil hne
          rw [ht, oidCompareLoop]
          simp [dotted, lexSign]
  | cons c cs ih =>
      obtain ⟨fuel, rfl⟩ : ∃ k, fuel = k + 1 := ⟨fuel - 1, by omega⟩
      obtain ⟨hc, hcmax⟩ := hcs c (by simp)
      have hcne := dotted_ne_nil hc.1 cs
      cases ds with
      | nil =>
          obtain ⟨x, t, ht⟩ := List.exists_cons_of_ne_nil hcne
          rw [ht, oidCompareLoop]
          simp [dotted, lexSign]
      | cons d ds =>
          obtain ⟨hd, hdmax⟩ := hds d (by simp)
          obtain ⟨rest1, hread1, hskip1⟩ := strtoul_dotted hc hcmax cs
          obtain ⟨rest2, hread2, hskip2⟩ := strtoul_dotted hd hdmax ds
          rw [oidCompareLoop, if_pos ⟨hcne, dotted_ne_nil hd.1 ds⟩, hread1, hread2]
          simp only
          split_ifs with hne hlt
          · simp [lexSign, List.cons_lt_cons_iff, hlt]
          · simp [lexSign, List.cons_lt_cons_iff, hlt, hne]
          · obtain heq : decimalValue c = decimalValue d := not_not.mp hne
            rw [hskip1, hskip2, ih (fun c hc => hcs c (by simp [hc]))
              (fun d hd => hds d (by simp [hd])) (by simpa using hfuel)]
            simp [lexSign, heq]

theorem length_comps_le {comps : List Bytes} (h : ∀ c ∈ comps, IsComponent c) :
    comps.length ≤ (dotted comps).length := by
  induction comps with
  | nil => simp
  | cons c comps ih =>
      have hc : 1 ≤ c.length := List.length_pos_iff.mpr (h c (by simp)).1
      cases comps with
      | nil => simpa [dotted] using hc
      | cons d comps =>
          have := ih fun c hc => h c (by simp [hc])
          rw [dotted, List.intercalate_cons_cons, ← dotted]
          simp only [List.length_append, List.length_cons] at this ⊢
          omega

/-- The comparison is **the lexicographic order of the arcs**. -/
theorem oidCompareNumeric_eq {a b : Bytes} (ha : OidText a) (hb : OidText b) :
    oidCompareNumeric a b = some (lexSign (dottedArcs a) (dottedArcs b)) := by
  obtain ⟨⟨cs, hcne, hcs, rfl⟩, hcmax⟩ := ha
  obtain ⟨⟨ds, hdne, hds, rfl⟩, hdmax⟩ := hb
  rw [dottedArcs_dotted hcne fun c hc => (hcs c hc).2] at hcmax ⊢
  rw [dottedArcs_dotted hdne fun d hd => (hds d hd).2] at hdmax ⊢
  have hlen := length_comps_le hcs
  exact oidCompareLoop_eq (fun c hc => ⟨hcs c hc, hcmax _ (List.mem_map_of_mem hc)⟩)
    (fun d hd => ⟨hds d hd, hdmax _ (List.mem_map_of_mem hd)⟩) (by omega)

theorem lexSign_pos_iff {xs ys : List ℕ} : 0 < lexSign xs ys ↔ ys < xs := by
  rw [lexSign]
  split_ifs with hlt heq
  · simpa using hlt.le
  · simp [heq]
  · simpa using lt_of_le_of_ne (not_lt.mp hlt) (Ne.symm heq)

theorem lexSign_neg_iff {xs ys : List ℕ} : lexSign xs ys < 0 ↔ xs < ys := by
  rw [lexSign]
  split_ifs with hlt heq <;> simp [hlt]

/-- `oid_compare_numeric` returns a negative number. -/
def OidBefore (a b : Bytes) : Prop := ∃ r, oidCompareNumeric a b = some r ∧ r < 0

theorem oidBefore_iff {a b : Bytes} (ha : OidText a) (hb : OidText b) :
    OidBefore a b ↔ dottedArcs a < dottedArcs b := by
  rw [OidBefore, oidCompareNumeric_eq ha hb, ← lexSign_neg_iff]
  simp

theorem CanonicalOid.oidText {s : Bytes} (h : CanonicalOid s) (hmax : ∀ a ∈ dottedArcs s, a ≤ sizeMax) :
    OidText s := by
  obtain ⟨comps, hne, hcomps, rfl⟩ := h
  exact ⟨⟨comps, hne, fun c hc => ⟨(hcomps c hc).1, (hcomps c hc).2.1⟩, rfl⟩, hmax⟩

/-- The canonical texts of object identifiers. The arcs of `asn1.c` are 32-bit numbers; the order
needs only that an `unsigned long` holds them. -/
abbrev OidString : Type := {s : Bytes // CanonicalOid s ∧ ∀ a ∈ dottedArcs s, a ≤ sizeMax}

/-- The comparison **orders canonical texts** strictly and totally. -/
theorem isStrictTotalOrder_oidBefore :
    IsStrictTotalOrder OidString fun a b => OidBefore a.1 b.1 := by
  have hiff : ∀ a b : OidString, OidBefore a.1 b.1 ↔ dottedArcs a.1 < dottedArcs b.1 :=
    fun a b => oidBefore_iff (a.2.1.oidText a.2.2) (b.2.1.oidText b.2.2)
  refine { trichotomous := ?_, irrefl := ?_, trans := ?_ }
  · intro a b hab hba
    rw [hiff] at hab hba
    have harcs : dottedArcs a.1 = dottedArcs b.1 := le_antisymm (not_lt.mp hba) (not_lt.mp hab)
    rw [Subtype.ext_iff, ← dotted_dottedArcs a.2.1, harcs, dotted_dottedArcs b.2.1]
  · intro a ha
    exact lt_irrefl _ ((hiff a a).mp ha)
  · intro a b c hab hbc
    rw [hiff] at hab hbc ⊢
    exact hab.trans hbc

/-! ### Texts that occur in a walk -/

/-- What the encoder accepts is a dotted text. -/
theorem oidLoop_components {room : ℕ} {s : Bytes} {arcs : List ℕ} (hne : s ≠ [])
    (h : oidLoop room s = some arcs) :
    ∃ comps : List Bytes, comps ≠ [] ∧ (∀ c ∈ comps, IsComponent c) ∧ s = dotted comps := by
  induction room generalizing s arcs with
  | zero =>
      obtain ⟨c, s, rfl⟩ := List.exists_cons_of_ne_nil hne
      simp [oidLoop] at h
  | succ room ih =>
      obtain ⟨c, s, rfl⟩ := List.exists_cons_of_ne_nil hne
      rw [oidLoop] at h
      split_ifs at h with hc
      have hc : isdigit c = true := by simpa using hc
      have hcomp : IsComponent ((c :: s).takeWhile isdigit) :=
        ⟨by simp [hc], fun x hx => List.mem_takeWhile_imp hx⟩
      have hsplit := (List.takeWhile_append_dropWhile (p := isdigit) (l := c :: s)).symm
      have hend : (strtoul (c :: s)).2.2 = (c :: s).dropWhile isdigit := by
        rw [strtoul_digit hc]
        split_ifs <;> rfl
      rcases hread : strtoul (c :: s) with ⟨v, erange, rest⟩
      rw [hread] at h hend
      simp only at h hend
      rw [hsplit, ← hend]
      split_ifs at h
      cases rest with
      | nil => exact ⟨[_], by simp, by simpa using hcomp, by simp [dotted]⟩
      | cons d t =>
          simp only at h
          split_ifs at h with hdot ht
          obtain rfl : d = 0x2E := not_not.mp hdot
          obtain ⟨arcs', h', rfl⟩ := Option.map_eq_some_iff.mp h
          obtain ⟨comps, hcne, hcomps, rfl⟩ := ih ht h'
          obtain ⟨x, comps, rfl⟩ := List.exists_cons_of_ne_nil hcne
          refine ⟨(c :: s).takeWhile isdigit :: x :: comps, by simp, ?_, ?_⟩
          · exact List.forall_mem_cons.mpr ⟨hcomp, hcomps⟩
          · simp only [dotted, List.intercalate_cons_cons, List.append_assoc,
              List.singleton_append]

theorem oidText_of_encodeOid {room : ℕ} {s e : Bytes} (h : encodeOid room s = some e) :
    OidText s := by
  obtain ⟨x, y, arcs, harcs, hx, -, hle, -⟩ := encodeOid_eq_some h
  have hloop : ∃ arcs, oidLoop 128 s = some arcs := by
    rw [encodeOid] at h
    cases hs : oidLoop 128 s with
    | none => simp [hs] at h
    | some arcs => exact ⟨arcs, rfl⟩
  have hne : s ≠ [] := by
    rintro rfl
    simp [encodeOid, oidLoop] at h
  obtain ⟨arcs', hloop⟩ := hloop
  refine ⟨oidLoop_components hne hloop, ?_⟩
  rw [harcs]
  intro a ha
  have huint : uint32Max ≤ sizeMax := by decide
  rcases List.mem_cons.mp ha with rfl | ha
  · exact hx.trans (by decide)
  · exact (hle a ha).trans huint

theorem Denotes.oidText {w : WireVarBind} {v : VarBind} (h : Denotes w v) : OidText v.oid := by
  obtain ⟨arcs, ⟨g, gs, -, -, -, hmerged⟩, hmax, hoid⟩ := h.oid
  have hne : arcs ≠ [] := by
    rw [hmerged, mergedArcs]
    split_ifs <;> simp
  have hcomps : ∀ c ∈ arcs.map decimal, IsComponent c := by
    intro c hc
    obtain ⟨a, -, rfl⟩ := List.mem_map.mp hc
    exact ⟨decimal_ne_nil a, fun x hx => isdigit_of_mem_decimal hx⟩
  refine ⟨⟨arcs.map decimal, by simpa using hne, hcomps, hoid⟩, ?_⟩
  rw [hoid, dottedArcs_dotted (by simpa using hne) fun c hc => (hcomps c hc).2, List.map_map]
  intro a ha
  obtain ⟨b, hb, rfl⟩ := List.mem_map.mp ha
  rw [Function.comp_apply, decimalValue_decimal]
  exact (hmax b hb).trans (by decide)

theorem exists_denotes {ws : List WireVarBind} {vbs : List VarBind}
    (h : List.Forall₂ Denotes ws vbs) : ∀ v ∈ vbs, ∃ w, Denotes w v := by
  induction h with
  | nil => simp
  | cons hw _ ih => exact List.forall_mem_cons.mpr ⟨⟨_, hw⟩, ih⟩

/-- A request is answered only for a dotted text, and the answer has decoded bindings. -/
theorem sendGetBulk_ok {self : CoreSnmp} {oid : Bytes} {nonRepeaters maxRepetitions : ℤ}
    {reply : Reply} {bulk : List VarBind}
    (h : sendGetBulk self oid nonRepeaters maxRepetitions reply [] = (.ok, bulk)) :
    OidText oid ∧ ∀ v ∈ bulk, ∃ w, Denotes w v := by
  unfold sendGetBulk at h
  split_ifs at h
  · cases h
  split at h
  · cases h
  · rename_i e he
    obtain ⟨eoid, heoid, -⟩ := snmpAsnEncodePdu_eq_some he
    refine ⟨oidText_of_encodeOid heoid, ?_⟩
    split at h
    · cases h
    · cases h
    · rename_i bytes
      simp only at h
      split_ifs at h
      · cases h
      · rcases snmpAsnDecodeResponse_cases (bytes.take 65535) [] with hd | ⟨vbs, hd, hm⟩
        · rw [hd] at h
          cases h
        · simp only [hd, List.nil_append] at h
          split_ifs at h
          · cases h
          · cases h
            obtain ⟨m, -, -, hvbs⟩ := decodeMessage_sound hm
            exact exists_denotes hvbs

/-- The arcs of a text are below those of the root: they continue them. -/
def Below (rootOid oid : Bytes) : Prop :=
  ∃ arcs, arcs ≠ [] ∧ dottedArcs oid = dottedArcs rootOid ++ arcs

theorem isPrefixMatch_cases {rootOid oid : Bytes} (h : isPrefixMatch rootOid oid = true) :
    oid = rootOid ∨ Below rootOid oid := by
  rw [isPrefixMatch] at h
  split_ifs at h with hlen
  simp only [Bool.and_eq_true, Bool.or_eq_true, decide_eq_true_eq] at h
  obtain ⟨htake, hend⟩ := h
  obtain ⟨t, rfl⟩ : ∃ t, oid = rootOid ++ t := ⟨oid.drop rootOid.length, by
    conv_lhs => rw [← List.take_append_drop rootOid.length oid, htake]⟩
  rcases hend with hend | hdot
  · left
    have : t = [] := by simpa using hend
    rw [this, List.append_nil]
  · right
    rw [List.getElem?_append_right (le_refl _), Nat.sub_self] at hdot
    obtain ⟨x, t, rfl⟩ : ∃ x u, t = x :: u := by
      cases t with
      | nil => simp at hdot
      | cons x u => exact ⟨x, u, rfl⟩
    obtain rfl : x = 0x2E := by simpa using hdot
    refine ⟨dottedArcs t, ?_, ?_⟩
    · simp [dottedArcs, List.splitOn_ne_nil]
    · simp only [dottedArcs, List.splitOn_append_cons_self, List.map_append]

/-! ### The walk -/

/-- What holds between two requests: `appended` has been appended to `start`, in order and
below the root, and `last_oid` is not below any of it. -/
structure Walked (rootOid : Bytes) (start appended : List VarBind) (c : Cursor) : Prop where
  outAll : c.outAll = start ++ appended
  increasing : appended.Pairwise fun v w => dottedArcs v.oid < dottedArcs w.oid
  below : ∀ v ∈ appended, Below rootOid v.oid
  fits : ∀ v ∈ appended, v.oid.length < oidStrCap
  upper : ∀ v ∈ appended, dottedArcs v.oid ≤ dottedArcs c.lastOid
  lower : dottedArcs rootOid ≤ dottedArcs c.lastOid

/-- A binding behind the last one is appended. -/
theorem Walked.append {rootOid : Bytes} {start appended : List VarBind} {c : Cursor}
    (h : Walked rootOid start appended c) {v : VarBind} (hfits : v.oid.length < oidStrCap)
    (hmatch : isPrefixMatch rootOid v.oid = true)
    (hbehind : dottedArcs c.lastOid < dottedArcs v.oid) :
    Walked rootOid start (appended ++ [v]) ⟨v.oid, c.outAll ++ [v]⟩ := by
  have hbelow : Below rootOid v.oid := by
    rcases isPrefixMatch_cases hmatch with heq | hbelow
    · -- the root itself is not behind what came before
      exact absurd (h.lower.trans_lt hbehind) (by rw [heq]; exact lt_irrefl _)
    · exact hbelow
  have hupper : ∀ w ∈ appended ++ [v], dottedArcs w.oid ≤ dottedArcs v.oid := by
    intro w hw
    rcases List.mem_append.mp hw with hw | hw
    · exact ((h.upper w hw).trans_lt hbehind).le
    · rw [List.mem_singleton.mp hw]
  refine ⟨?_, ?_, ?_, ?_, hupper, (h.lower.trans_lt hbehind).le⟩
  · rw [h.outAll, List.append_assoc]
  · refine List.pairwise_append.mpr ⟨h.increasing, List.pairwise_singleton _ _, ?_⟩
    intro w hw x hx
    rw [List.mem_singleton.mp hx]
    exact (h.upper w hw).trans_lt hbehind
  · intro w hw
    rcases List.mem_append.mp hw with hw | hw
    · exact h.below w hw
    · rwa [List.mem_singleton.mp hw]
  · intro w hw
    rcases List.mem_append.mp hw with hw | hw
    · exact h.fits w hw
    · rwa [List.mem_singleton.mp hw]

/-- The loop over a reply ends, and it goes on only if it has appended something. -/
theorem bulkLoop_spec {rootOid : Bytes} {bulk : List VarBind} (hbulk : ∀ v ∈ bulk, ∃ w, Denotes w v)
    {start appended : List VarBind} {c : Cursor} (h : Walked rootOid start appended c)
    (htext : OidText c.lastOid) (keep : Bool) :
    ∃ r c' appended', bulkLoop rootOid bulk keep c = some (r, c') ∧
      Walked rootOid start appended' c' ∧ appended.length ≤ appended'.length ∧
      (r = some true → keep = true ∨ appended.length < appended'.length) := by
  induction bulk generalizing c appended keep with
  | nil => exact ⟨some keep, c, appended, rfl, h, le_refl _, by simp⟩
  | cons v bulk ih =>
      obtain ⟨⟨w, hw⟩, hbulk⟩ := List.forall_mem_cons.mp hbulk
      rw [bulkLoop]
      split_ifs with htag hmatch
      · exact ⟨_, c, appended, rfl, h, le_refl _, by simp⟩
      · exact ⟨_, c, appended, rfl, h, le_refl _, by simp⟩
      · rw [oidCompareNumeric_eq hw.oidText htext]
        simp only
        split_ifs with hcompare
        · exact ⟨_, c, appended, rfl, h, le_refl _, by simp⟩
        · rw [not_le, lexSign_pos_iff] at hcompare
          have hcopy : newSnmpVarBind v.tag v.oid v.valueStr = some v := by
            rw [newSnmpVarBind, if_neg (by have := hw.fits; omega), ← hw.valueLen]
          have hlast : v.oid.take (oidStrCap - 1) = v.oid :=
            List.take_of_length_le (by have := hw.fits.1; omega)
          rw [hcopy]
          simp only [hlast]
          obtain ⟨r, c', appended', heq, hwalked, hle, -⟩ := ih hbulk
            (h.append hw.fits.1 (by simpa using hmatch) hcompare) hw.oidText true
          rw [List.length_append, List.length_singleton] at hle
          exact ⟨r, c', appended', heq, hwalked, by omega, fun _ => .inr (by omega)⟩

/-- There are finitely many texts that fit into `last_oid`. -/
theorem exists_length_le : ∃ n, ∀ oids : List Bytes, oids.Nodup → (∀ s ∈ oids, s.length < oidStrCap) →
    oids.length ≤ n := by
  have : Finite UInt8 := Finite.of_injective UInt8.toFin fun _ _ => UInt8.toFin_inj.mp
  have hfinite : {s : Bytes | s.length < oidStrCap}.Finite := List.finite_length_lt UInt8 oidStrCap
  refine ⟨hfinite.toFinset.card, ?_⟩
  intro oids hnodup hlen
  rw [← List.toFinset_card_of_nodup hnodup]
  refine Finset.card_le_card fun s hs => ?_
  rw [Set.Finite.mem_toFinset]
  exact hlen s (List.mem_toFinset.mp hs)

theorem Walked.nodup {rootOid : Bytes} {start appended : List VarBind} {c : Cursor}
    (h : Walked rootOid start appended c) : (appended.map VarBind.oid).Nodup := by
  refine List.pairwise_map.mpr (h.increasing.imp ?_)
  rintro v w hlt heq
  rw [heq] at hlt
  exact lt_irrefl _ hlt

/-- With enough fuel the loop ends: every further request follows an appended binding. -/
theorem walkLoop_spec (self : CoreSnmp) {rootOid : Bytes} (replies : ℕ → Reply) {n : ℕ}
    (hn : ∀ oids : List Bytes, oids.Nodup → (∀ s ∈ oids, s.length < oidStrCap) → oids.length ≤ n)
    (fuel i : ℕ) {start appended : List VarBind} {c : Cursor}
    (h : Walked rootOid start appended c) (hfuel : n < fuel + appended.length) :
    ∃ code c' appended', walkLoop self rootOid replies fuel i c = some (code, c'.outAll) ∧
      Walked rootOid start appended' c' := by
  induction fuel generalizing i appended c with
  | zero =>
      have := hn _ h.nodup (by simpa using h.fits)
      rw [List.length_map] at this
      omega
  | succ fuel ih =>
      rw [walkLoop]
      split
      · rename_i bulk hsend
        obtain ⟨htext, hbulk⟩ := sendGetBulk_ok hsend
        obtain ⟨r, c', appended', heq, hwalked, hle, hgrows⟩ := bulkLoop_spec hbulk h htext false
        rw [heq]
        rcases r with - | - | -
        · exact ⟨.invalid, c', appended', rfl, hwalked⟩
        · exact ⟨.ok, c', appended', rfl, hwalked⟩
        · have hgrows : appended.length < appended'.length := by simpa using hgrows rfl
          exact ih (i + 1) hwalked (by omega)
      · exact ⟨_, c, appended, rfl, h⟩

/-- **Safety and termination of a walk**, whatever the agent replies: some number of requests
is enough for every walk, and the bindings appended to `out_all` are strictly increasing in
numeric order, below the root and free of duplicates. The comparison behind it orders the
canonical texts strictly and totally. -/
theorem snmpWalk_safe :
    (∃ n, ∀ (self : CoreSnmp) (rootOid : Bytes) (replies : ℕ → Reply) (outAll : List VarBind),
      ∃ code appended, snmpWalk self n rootOid replies outAll = some (code, outAll ++ appended) ∧
        (appended.Pairwise fun v w => dottedArcs v.oid < dottedArcs w.oid) ∧
        (∀ v ∈ appended, Below rootOid v.oid) ∧ (appended.map VarBind.oid).Nodup) ∧
      IsStrictTotalOrder OidString fun a b => OidBefore a.1 b.1 := by
  refine ⟨?_, isStrictTotalOrder_oidBefore⟩
  obtain ⟨n, hn⟩ := exists_length_le
  refine ⟨n + 1, fun self rootOid replies outAll => ?_⟩
  rw [snmpWalk]
  split_ifs with hlen
  · exact ⟨.invalid, [], by simp, .nil, by simp, by simp⟩
  · have hstart : Walked rootOid outAll [] ⟨rootOid.take (oidStrCap - 1), outAll⟩ := by
      rw [List.take_of_length_le (by omega)]
      exact ⟨by simp, .nil, by simp, by simp, by simp, le_refl _⟩
    obtain ⟨code, c', appended, heq, hwalked⟩ :=
      walkLoop_spec self replies hn (n + 1) 0 hstart (by simp)
    exact ⟨code, appended, by rw [heq, hwalked.outAll], hwalked.increasing, hwalked.below,
      hwalked.nodup⟩

end Snmp
