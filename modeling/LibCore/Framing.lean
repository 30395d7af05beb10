import Mathlib.Data.List.Basic
import Mathlib.Tactic

/-!
# Framing a Stream of Messages

A reader receives a stream in chunks and cuts it into messages: a header block, whose end can
be seen in the stream itself, and a body, whose length the block announces. The header buffer
holds fewer than `limit` items. The reader looks for the end of a block only when a chunk has
arrived: what is behind a message in the buffer is looked at with the next chunk, and not
before.

Such a reader does not always do the same thing with one stream. `Safe` says on which streams
it does, for chunks of at most `cap` items: the buffer must not overrun before a block has been
seen, and no complete block may be left in the buffer when the stream ends. `agree_iff_safe`
is that this is exactly the condition.

Items, heads, messages and the state of the receiver are any types.

## Main definitions

* `Format`: where blocks end and what they announce, with its laws.
* `Reader`, `feed`, `feedAll`: the reader.
* `Agree`: the outcome does not depend on the chunks.
* `Safe`: the condition on the stream.

## Main results

* `feedAll_header`: a block is recognised, unless the buffer overruns or the stream ends.
* `feedAll_startBody`: a body is completed, or the stream ends in it.
* `agree_iff_safe`: agreement is safety.
-/

namespace Framing

/-- Where header blocks end, what a block says (`none`: it is rejected), and the length of the
body it announces. The end of a block is seen as soon as the block is there, and not moved by
what follows. -/
structure Format (α H : Type) where
  blockLen : List α → Option ℕ
  parse : List α → Option H
  bodyLen : H → ℕ
  blockLen_pos : ∀ {b n}, blockLen b = some n → 0 < n
  blockLen_le : ∀ {b n}, blockLen b = some n → n ≤ b.length
  blockLen_append : ∀ {b n} t, blockLen b = some n → blockLen (b ++ t) = some n
  blockLen_take : ∀ {b n}, blockLen b = some n → blockLen (b.take n) = some n

/-- A format with the size of the header buffer, the receiver of the messages, which refuses a
message (`none`) or takes it and says whether the stream goes on, and the message that a head
and a body are. -/
structure Protocol (α H E M : Type) extends Format α H where
  limit : ℕ
  deliver : E → H → List α → Option (E × Bool)
  message : H → List α → M

/-- What the reader is at: a header block, a body, or nothing any more. -/
inductive Phase (α H : Type) where
  | header (buf : List α)
  | body (head : H) (got : List α)
  | closed

/-- Whether the reader has closed. -/
def Phase.isClosed {α H : Type} : Phase α H → Bool
  | .closed => true
  | .header _ | .body _ _ => false

/-- A reader: the state of the receiver, the phase and the messages delivered. -/
structure Reader (α H E M : Type) where
  env : E
  phase : Phase α H
  out : List M

variable {α H E M : Type} (p : Protocol α H E M)

/-! ### The reader -/

/-- Deliver a message, with `left` behind it in the buffer. -/
def finish (r : Reader α H E M) (head : H) (body left : List α) : Reader α H E M :=
  match p.deliver r.env head body with
  | none => { r with phase := .closed }
  | some (env, keep) =>
      ⟨env, if keep then .header left else .closed, r.out ++ [p.message head body]⟩

/-- A block has been read, and `rest` is behind it in the buffer. -/
def startBody (r : Reader α H E M) (head : H) (rest : List α) : Reader α H E M :=
  if rest.length < p.bodyLen head then { r with phase := .body head rest }
  else finish p r head (rest.take (p.bodyLen head)) (rest.drop (p.bodyLen head))

/-- A buffer that holds a block of `n` items. -/
def recognise (r : Reader α H E M) (n : ℕ) (buf : List α) : Reader α H E M :=
  match p.parse (buf.take n) with
  | none => { r with phase := .closed }
  | some head => startBody p r head (buf.drop n)

/-- A chunk for the header buffer. -/
def feedHeader (r : Reader α H E M) (buf chunk : List α) : Reader α H E M :=
  if p.limit ≤ buf.length + chunk.length then { r with phase := .closed }
  else
    match p.blockLen (buf ++ chunk) with
    | none => { r with phase := .header (buf ++ chunk) }
    | some n => recognise p r n (buf ++ chunk)

/-- A chunk behind a message, for a reader that may have closed. -/
def feedNext (r : Reader α H E M) (chunk : List α) : Reader α H E M :=
  match r.phase with
  | .header buf => if chunk = [] then r else feedHeader p r buf chunk
  | .body _ _ | .closed => r

/-- A chunk. In a body, what is more than the body is a chunk for the next block. -/
def feed (r : Reader α H E M) (chunk : List α) : Reader α H E M :=
  match r.phase with
  | .closed => r
  | .header buf => feedHeader p r buf chunk
  | .body head got =>
      let need := p.bodyLen head - got.length
      if chunk.length < need then { r with phase := .body head (got ++ chunk) }
      else feedNext p (finish p r head (got ++ chunk.take need) []) (chunk.drop need)

/-- The chunks of a stream, one after the other. -/
def feedAll (r : Reader α H E M) (chunks : List (List α)) : Reader α H E M :=
  chunks.foldl (feed p) r

/-- What can be seen of a reader: the messages it delivered, and whether it has closed. -/
def Reader.outcome (r : Reader α H E M) : List M × Bool := (r.out, r.phase.isClosed)

@[simp] theorem feedAll_nil (r : Reader α H E M) : feedAll p r [] = r := rfl

@[simp] theorem feedAll_cons (r : Reader α H E M) (c : List α) (cs : List (List α)) :
    feedAll p r (c :: cs) = feedAll p (feed p r c) cs := rfl

theorem feedAll_append (r : Reader α H E M) (cs ds : List (List α)) :
    feedAll p r (cs ++ ds) = feedAll p (feedAll p r cs) ds := List.foldl_append

/-- A closed reader stays as it is. -/
theorem feedAll_closed {r : Reader α H E M} (hr : r.phase = .closed) (cs : List (List α)) :
    feedAll p r cs = r := by
  induction cs with
  | nil => rfl
  | cons c cs ih =>
      have hfeed : feed p r c = r := by simp only [feed, hr]
      rw [feedAll_cons, hfeed, ih]

/-! ### Reading a stream -/

/-- A way to read the stream `s`: at most `q` items of it are in the buffer, not looked at,
and the rest arrives in chunks of at most `cap` items. -/
structure Reads (cap q : ℕ) (s b : List α) (cs : List (List α)) : Prop where
  length_le : b.length ≤ q
  flatten : b ++ cs.flatten = s
  chunks : ∀ c ∈ cs, c ≠ [] ∧ c.length ≤ cap

/-- A prefix of a stream shows the end of the first block once it is long enough. -/
theorem blockLen_of_append {f : Format α H} {s : List α} {k n : ℕ}
    (hn : f.blockLen (s.take k) = some n) {b t : List α} (hs : b ++ t = s) (hb : b.length ≤ k) :
    f.blockLen b = if n ≤ b.length then some n else none := by
  have htake : s.take k = b ++ t.take (k - b.length) := by
    rw [← hs, List.take_append, List.take_of_length_le hb]
  rw [htake] at hn
  split
  · rename_i hle
    have := f.blockLen_append (b.drop n) (f.blockLen_take hn)
    rwa [List.take_append_of_le_length hle, List.take_append_drop] at this
  · rename_i hlt
    cases hb' : f.blockLen b with
    | none => rfl
    | some n' =>
        have := f.blockLen_append (t.take (k - b.length)) hb'
        rw [hn, Option.some.injEq] at this
        subst this
        exact absurd (f.blockLen_le hb') hlt

/-- A stream without a block that fits into the buffer shows none. -/
theorem blockLen_eq_none_of_append {f : Format α H} {s : List α} {k : ℕ}
    (hn : f.blockLen (s.take k) = none) {b t : List α} (hs : b ++ t = s) (hb : b.length ≤ k) :
    f.blockLen b = none := by
  have htake : s.take k = b ++ t.take (k - b.length) := by
    rw [← hs, List.take_append, List.take_of_length_le hb]
  cases hb' : f.blockLen b with
  | none => rfl
  | some n =>
      have := f.blockLen_append (t.take (k - b.length)) hb'
      rw [← htake, hn] at this
      cases this

/-- A stream whose first block does not fit into the buffer: nothing is delivered, and the
reader closes when the buffer is full. -/
theorem outcome_of_no_block {s b : List α} {cs : List (List α)} {r : Reader α H E M}
    (hn : p.blockLen (s.take (p.limit - 1)) = none) (hr : r.phase = .header b)
    (hb : b.length < p.limit) (hs : b ++ cs.flatten = s) :
    (feedAll p r cs).outcome = (r.out, decide (p.limit ≤ s.length)) := by
  induction cs generalizing r b with
  | nil =>
      rw [List.flatten_nil, List.append_nil] at hs
      subst hs
      simp [Reader.outcome, hr, Phase.isClosed, hb]
  | cons c cs ih =>
      rw [List.flatten_cons, ← List.append_assoc] at hs
      have hlen : (b ++ c).length ≤ s.length := by
        rw [← hs]
        exact (List.prefix_append _ _).length_le
      rw [feedAll_cons, feed, hr]
      simp only [feedHeader]
      by_cases hfull : p.limit ≤ b.length + c.length
      · rw [if_pos hfull, feedAll_closed p rfl]
        rw [List.length_append] at hlen
        simp [Reader.outcome, Phase.isClosed]
        omega
      · rw [if_neg hfull, blockLen_eq_none_of_append hn hs (by rw [List.length_append]; omega)]
        exact ih rfl (by rw [List.length_append]; omega) hs

/-- Collecting a header block of `n` items: the stream ends before another chunk arrives, the
buffer overruns, or the block is recognised. Before every chunk there are at most `m` items in
the buffer. -/
theorem feedAll_header {s b : List α} {cs : List (List α)} {r : Reader α H E M} {n m cap : ℕ}
    (hn : p.blockLen (s.take (p.limit - 1)) = some n) (hm : n - 1 ≤ m)
    (hr : r.phase = .header b) (hread : Reads cap m s b cs) :
    (cs = [] ∧ b = s) ∨
    (feedAll p r cs = { r with phase := .closed } ∧ p.limit ≤ m + cap ∧ p.limit ≤ s.length) ∨
    ∃ buf cs', n ≤ buf.length ∧ feedAll p r cs = feedAll p (recognise p r n buf) cs' ∧
      Reads cap (m + cap) s buf cs' := by
  obtain ⟨hb, hs, hcs⟩ := hread
  induction cs generalizing r b with
  | nil =>
      rw [List.flatten_nil, List.append_nil] at hs
      exact .inl ⟨rfl, hs⟩
  | cons c cs ih =>
      right
      rw [List.flatten_cons, ← List.append_assoc] at hs
      obtain ⟨⟨-, hc⟩, hcs⟩ := List.forall_mem_cons.mp hcs
      have hlen : (b ++ c).length ≤ s.length := by
        rw [← hs]
        exact (List.prefix_append _ _).length_le
      rw [feedAll_cons, feed, hr]
      simp only [feedHeader]
      by_cases hfull : p.limit ≤ b.length + c.length
      · rw [if_pos hfull, feedAll_closed p rfl]
        rw [List.length_append] at hlen
        exact .inl ⟨rfl, by omega, by omega⟩
      · rw [if_neg hfull, blockLen_of_append hn hs (by rw [List.length_append]; omega)]
        by_cases hle : n ≤ (b ++ c).length
        · rw [if_pos hle]
          exact .inr ⟨b ++ c, cs, hle, rfl, by rw [List.length_append]; omega, hs, hcs⟩
        · rw [if_neg hle]
          refine (ih rfl (by omega) hs hcs).resolve_left ?_
          -- the whole stream would be in the buffer, with its block
          rintro ⟨-, rfl⟩
          exact hle ((p.blockLen_le hn).trans (List.length_take_le' _ _))

/-- Behind a message the reader takes a chunk as it always does, unless it is empty. -/
theorem feedNext_finish (r : Reader α H E M) (head : H) (body left chunk : List α) :
    feedNext p (finish p r head body left) chunk =
      if chunk = [] then finish p r head body left
      else feed p (finish p r head body left) chunk := by
  unfold finish
  cases p.deliver r.env head body with
  | none => simp [feedNext, feed]
  | some res =>
      obtain ⟨env, keep⟩ := res
      cases keep <;> simp [feedNext, feed]

/-- A chunk that is more than the body needs may as well arrive in two. -/
theorem feed_split {r : Reader α H E M} {head : H} {got c : List α}
    (hr : r.phase = .body head got) (hc : p.bodyLen head - got.length < c.length) :
    feed p r c = feed p (feed p r (c.take (p.bodyLen head - got.length)))
      (c.drop (p.bodyLen head - got.length)) := by
  generalize hneed : p.bodyLen head - got.length = need at *
  have htake : (c.take need).length = need := List.length_take_of_le hc.le
  have hdrop : c.drop need ≠ [] := by
    rw [← List.length_pos_iff, List.length_drop]
    omega
  have hfirst : feed p r (c.take need) = finish p r head (got ++ c.take need) [] := by
    simp only [feed, hr, hneed, htake, lt_irrefl, if_false]
    rw [feedNext_finish, List.drop_take, Nat.sub_self, List.take_zero, if_pos rfl, List.take_take,
      Nat.min_self]
  rw [hfirst]
  simp only [feed, hr, hneed, not_lt.mpr hc.le, if_false]
  rw [feedNext_finish, if_neg hdrop]
  rfl

/-- Collecting a body. -/
theorem feedAll_body {t got : List α} {cs : List (List α)} {r : Reader α H E M} {head : H}
    {cap : ℕ} (hr : r.phase = .body head got) (hgot : got.length < p.bodyLen head)
    (hs : got ++ cs.flatten = t) (hcs : ∀ c ∈ cs, c ≠ [] ∧ c.length ≤ cap) :
    (t.length < p.bodyLen head → feedAll p r cs = { r with phase := .body head t }) ∧
    (p.bodyLen head ≤ t.length → ∃ cs', Reads cap 0 (t.drop (p.bodyLen head)) [] cs' ∧
      feedAll p r cs = feedAll p (finish p r head (t.take (p.bodyLen head)) []) cs') := by
  induction cs generalizing r got with
  | nil =>
      rw [List.flatten_nil, List.append_nil] at hs
      subst hs
      refine ⟨fun _ => ?_, fun hle => absurd hgot (by omega)⟩
      rw [feedAll_nil, ← hr]
  | cons c cs ih =>
      rw [List.flatten_cons] at hs
      obtain ⟨⟨-, hc⟩, hcs⟩ := List.forall_mem_cons.mp hcs
      have hlen : got.length + c.length ≤ t.length := by
        rw [← hs, List.length_append, List.length_append]
        omega
      rw [feedAll_cons, feed, hr]
      simp only []
      by_cases hmore : c.length < p.bodyLen head - got.length
      · rw [if_pos hmore]
        exact ih rfl (by rw [List.length_append]; omega) (by rw [← hs, List.append_assoc]) hcs
      · rw [if_neg hmore]
        refine ⟨fun hlt => absurd hlen (by omega), fun _ => ?_⟩
        generalize hneed : p.bodyLen head - got.length = need at *
        have hbody : p.bodyLen head = got.length + need := by omega
        have htake : t.take (p.bodyLen head) = got ++ c.take need := by
          rw [← hs, hbody, List.take_length_add_append, List.take_append_of_le_length (by omega)]
        have hdrop : t.drop (p.bodyLen head) = c.drop need ++ cs.flatten := by
          rw [← hs, hbody, List.drop_length_add_append, List.drop_append_of_le_length (by omega)]
        rw [htake, hdrop]
        by_cases hrest : c.drop need = []
        · refine ⟨cs, ⟨le_rfl, by rw [hrest], hcs⟩, ?_⟩
          rw [feedNext_finish, if_pos hrest]
        · refine ⟨c.drop need :: cs, ⟨le_rfl, rfl, ?_⟩, ?_⟩
          · refine List.forall_mem_cons.mpr ⟨⟨hrest, ?_⟩, hcs⟩
            rw [List.length_drop]
            omega
          · rw [feedNext_finish, if_neg hrest, feedAll_cons]

/-- A block has been recognised with `rest` behind it in the buffer, and `t` is everything
behind the block: the body is completed, or the stream ends in it. -/
theorem feedAll_startBody {t rest : List α} {cs : List (List α)} {cap q : ℕ}
    (hread : Reads cap q t rest cs) (r : Reader α H E M) (head : H) :
    (t.length < p.bodyLen head →
      feedAll p (startBody p r head rest) cs = { r with phase := .body head t }) ∧
    (p.bodyLen head ≤ t.length → ∃ left cs',
      Reads cap (q - p.bodyLen head) (t.drop (p.bodyLen head)) left cs' ∧
      feedAll p (startBody p r head rest) cs =
        feedAll p (finish p r head (t.take (p.bodyLen head)) left) cs') := by
  obtain ⟨hq, hs, hcs⟩ := hread
  have hlen : rest.length ≤ t.length := by
    rw [← hs]
    exact (List.prefix_append _ _).length_le
  unfold startBody
  by_cases hmore : rest.length < p.bodyLen head
  · rw [if_pos hmore]
    obtain ⟨hshort, hfull⟩ := feedAll_body p (r := { r with phase := .body head rest })
      rfl hmore hs hcs
    refine ⟨hshort, fun hle => ?_⟩
    obtain ⟨cs', ⟨-, hflat, hcs'⟩, hfeed⟩ := hfull hle
    exact ⟨[], cs', ⟨Nat.zero_le _, hflat, hcs'⟩, hfeed⟩
  · rw [if_neg hmore]
    refine ⟨fun hlt => absurd hlen (by omega), fun _ => ?_⟩
    refine ⟨rest.drop (p.bodyLen head), cs, ⟨?_, ?_, hcs⟩, ?_⟩
    · rw [List.length_drop]
      omega
    · rw [← hs, List.drop_append_of_le_length (by omega)]
    · rw [← hs, List.take_append_of_le_length (by omega)]

/-- The buffer can overrun before a block of `n` items has been seen, when up to `q` items are
in it to start with. -/
def Overrun (cap q n : ℕ) (s : List α) : Prop :=
  p.limit ≤ max (n - 1) q + cap ∧ p.limit ≤ s.length

/-- Reading a stream that starts with a block of `n` items: it may all be in the buffer, with
no chunk to come; the buffer overruns; the block is rejected; the stream ends in the body; or
the message is completed, with at most so many items left in the buffer as were in it before
the last chunk, and a chunk, less the message. -/
theorem feedAll_block {s b : List α} {cs : List (List α)} {r : Reader α H E M} {n q cap : ℕ}
    (hn : p.blockLen (s.take (p.limit - 1)) = some n) (hr : r.phase = .header b)
    (hread : Reads cap q s b cs) :
    (s.length ≤ q ∧ feedAll p r cs = r) ∨
    (Overrun p cap q n s ∧ feedAll p r cs = { r with phase := .closed }) ∨
    (p.parse (s.take n) = none ∧ feedAll p r cs = { r with phase := .closed }) ∨
    ∃ head, p.parse (s.take n) = some head ∧
      ((s.length < n + p.bodyLen head ∧
          feedAll p r cs = { r with phase := .body head (s.drop n) }) ∨
        (n + p.bodyLen head ≤ s.length ∧ ∃ left cs',
          Reads cap (min (max (n - 1) q + cap) s.length - (n + p.bodyLen head))
            (s.drop (n + p.bodyLen head)) left cs' ∧
          feedAll p r cs =
            feedAll p (finish p r head ((s.drop n).take (p.bodyLen head)) left) cs')) := by
  have hread' : Reads cap (max (n - 1) q) s b cs :=
    ⟨hread.length_le.trans (le_max_right _ _), hread.flatten, hread.chunks⟩
  rcases feedAll_header p hn (le_max_left _ _) hr hread' with
    ⟨rfl, rfl⟩ | ⟨hclosed, hcap, hlen⟩ | ⟨buf, cs', hle, hfeed, hbuf⟩
  · exact .inl ⟨hread.length_le, rfl⟩
  · exact .inr (.inl ⟨⟨hcap, hlen⟩, hclosed⟩)
  · right; right
    have hblen : buf.length ≤ s.length := by
      rw [← hbuf.flatten]
      exact (List.prefix_append _ _).length_le
    have htake : buf.take n = s.take n := by
      rw [← hbuf.flatten, List.take_append_of_le_length hle]
    rw [hfeed, recognise, htake]
    cases hparse : p.parse (s.take n) with
    | none => exact .inl ⟨rfl, feedAll_closed p rfl cs'⟩
    | some head =>
        refine .inr ⟨head, rfl, ?_⟩
        have hrest : Reads cap (min (max (n - 1) q + cap) s.length - n) (s.drop n)
            (buf.drop n) cs' := by
          refine ⟨?_, ?_, hbuf.chunks⟩
          · have := hbuf.length_le
            rw [List.length_drop]
            omega
          · rw [← hbuf.flatten, List.drop_append_of_le_length hle]
        obtain ⟨hshort, hfull⟩ := feedAll_startBody p hrest r head
        rw [List.length_drop] at hshort hfull
        simp only []
        by_cases hlt : s.length < n + p.bodyLen head
        · exact .inl ⟨hlt, hshort (by omega)⟩
        · rw [List.drop_drop, Nat.sub_sub] at hfull
          exact .inr ⟨by omega, hfull (by omega)⟩

section Cases

variable {p} {s b : List α} {cs : List (List α)} {r : Reader α H E M} {n q cap : ℕ} {head : H}
variable (hn : p.blockLen (s.take (p.limit - 1)) = some n) (hr : r.phase = .header b)
  (hread : Reads cap q s b cs)

include hn hr hread

/-- A block that is looked at and rejected closes the reader. -/
theorem feedAll_rejected (hparse : p.parse (s.take n) = none) (hlook : q < s.length) :
    feedAll p r cs = { r with phase := .closed } := by
  rcases feedAll_block p hn hr hread with
    ⟨hall, -⟩ | ⟨-, hfeed⟩ | ⟨-, hfeed⟩ | ⟨head, hparse', -⟩
  · omega
  · exact hfeed
  · exact hfeed
  · rw [hparse] at hparse'
    cases hparse'

/-- A message that is not complete is waited for. -/
theorem outcome_waiting (hparse : p.parse (s.take n) = some head)
    (hshort : s.length < n + p.bodyLen head) (hover : ¬Overrun p cap q n s) :
    (feedAll p r cs).outcome = (r.out, false) := by
  rcases feedAll_block p hn hr hread with
    ⟨-, hfeed⟩ | ⟨hover', -⟩ | ⟨hparse', -⟩ | ⟨head', hparse', ⟨-, hfeed⟩ | ⟨hfull, -⟩⟩
  · rw [hfeed, Reader.outcome, hr]
    rfl
  · exact absurd hover' hover
  · rw [hparse] at hparse'
    cases hparse'
  · rw [hfeed]
    rfl
  · rw [hparse, Option.some.injEq] at hparse'
    subst hparse'
    omega

/-- A complete message is refused, or something else closes the reader. -/
theorem feedAll_refused (hparse : p.parse (s.take n) = some head)
    (hfull : n + p.bodyLen head ≤ s.length)
    (hdeliver : p.deliver r.env head ((s.drop n).take (p.bodyLen head)) = none)
    (hlook : q < s.length) : feedAll p r cs = { r with phase := .closed } := by
  rcases feedAll_block p hn hr hread with
    ⟨hall, -⟩ | ⟨-, hfeed⟩ | ⟨-, hfeed⟩ | ⟨head', hparse', ⟨hshort, -⟩ | ⟨-, left, cs', -, hfeed⟩⟩
  · omega
  · exact hfeed
  · exact hfeed
  · rw [hparse, Option.some.injEq] at hparse'
    subst hparse'
    omega
  · rw [hparse, Option.some.injEq] at hparse'
    subst hparse'
    rw [hfeed, finish, hdeliver, feedAll_closed p rfl]

/-- A complete message is delivered, and the rest of the stream is read on. -/
theorem feedAll_delivered (hparse : p.parse (s.take n) = some head)
    (hfull : n + p.bodyLen head ≤ s.length) (hlook : q < s.length)
    (hover : ¬Overrun p cap q n s) :
    ∃ left cs', Reads cap (min (max (n - 1) q + cap) s.length - (n + p.bodyLen head))
        (s.drop (n + p.bodyLen head)) left cs' ∧
      feedAll p r cs =
        feedAll p (finish p r head ((s.drop n).take (p.bodyLen head)) left) cs' := by
  rcases feedAll_block p hn hr hread with
    ⟨hall, -⟩ | ⟨hover', -⟩ | ⟨hparse', -⟩ | ⟨head', hparse', ⟨hshort, -⟩ | ⟨-, hmsg⟩⟩
  · omega
  · exact absurd hover' hover
  · rw [hparse] at hparse'
    cases hparse'
  · rw [hparse, Option.some.injEq] at hparse'
    subst hparse'
    omega
  · rw [hparse, Option.some.injEq] at hparse'
    subst hparse'
    exact hmsg

end Cases

/-! ### Safety -/

/-- The streams with which the reader always does the same thing, when up to `q` items of them
may be in the buffer, not looked at. -/
inductive Safe (cap : ℕ) : E → ℕ → List α → Prop
  /-- No block fits into the buffer. -/
  | noBlock {e : E} {q : ℕ} {s : List α} :
      p.blockLen (s.take (p.limit - 1)) = none → Safe cap e q s
  /-- The block is rejected, and it will be looked at. -/
  | rejected {e : E} {q n : ℕ} {s : List α} :
      p.blockLen (s.take (p.limit - 1)) = some n → p.parse (s.take n) = none →
      q < s.length → Safe cap e q s
  /-- The body is not complete, and the buffer cannot overrun. -/
  | waiting {e : E} {q n : ℕ} {s : List α} {head : H} :
      p.blockLen (s.take (p.limit - 1)) = some n → p.parse (s.take n) = some head →
      s.length < n + p.bodyLen head → ¬Overrun p cap q n s → Safe cap e q s
  /-- The message is refused, and it will be looked at. -/
  | refused {e : E} {q n : ℕ} {s : List α} {head : H} :
      p.blockLen (s.take (p.limit - 1)) = some n → p.parse (s.take n) = some head →
      n + p.bodyLen head ≤ s.length →
      p.deliver e head ((s.drop n).take (p.bodyLen head)) = none →
      q < s.length → Safe cap e q s
  /-- The message is delivered, and if the stream goes on the rest of it is safe too. -/
  | delivered {e e' : E} {q n : ℕ} {s : List α} {head : H} {keep : Bool} :
      p.blockLen (s.take (p.limit - 1)) = some n → p.parse (s.take n) = some head →
      n + p.bodyLen head ≤ s.length →
      p.deliver e head ((s.drop n).take (p.bodyLen head)) = some (e', keep) →
      q < s.length → ¬Overrun p cap q n s →
      (keep = true → Safe cap e' (min (max (n - 1) q + cap) s.length - (n + p.bodyLen head))
        (s.drop (n + p.bodyLen head))) → Safe cap e q s

/-- The outcome does not depend on how the stream is read. -/
def Agree (cap : ℕ) (e : E) (q : ℕ) (s : List α) (out : List M) : Prop :=
  ∀ b₁ cs₁ b₂ cs₂, Reads cap q s b₁ cs₁ → Reads cap q s b₂ cs₂ →
    (feedAll p ⟨e, .header b₁, out⟩ cs₁).outcome = (feedAll p ⟨e, .header b₂, out⟩ cs₂).outcome

variable {p}

/-- On a safe stream the outcome is the same however it is read. -/
theorem Safe.agree {cap q : ℕ} {e : E} {s : List α} (hsafe : Safe p cap e q s)
    (hq : q < p.limit) (out : List M) : Agree p cap e q s out := by
  suffices hres : ∃ res : List M × Bool, ∀ b cs, Reads cap q s b cs →
      (feedAll p ⟨e, .header b, out⟩ cs).outcome = res by
    obtain ⟨res, hres⟩ := hres
    intro b₁ cs₁ b₂ cs₂ h₁ h₂
    rw [hres _ _ h₁, hres _ _ h₂]
  induction hsafe generalizing out with
  | @noBlock e q s hn =>
      refine ⟨(out, decide (p.limit ≤ s.length)), fun b cs hread => ?_⟩
      exact outcome_of_no_block p hn rfl (hread.length_le.trans_lt hq) hread.flatten
  | rejected hn hparse hlook =>
      refine ⟨(out, true), fun b cs hread => ?_⟩
      rw [feedAll_rejected hn rfl hread hparse hlook]
      rfl
  | waiting hn hparse hshort hover =>
      exact ⟨(out, false), fun b cs hread => outcome_waiting hn rfl hread hparse hshort hover⟩
  | refused hn hparse hfull hdeliver hlook =>
      refine ⟨(out, true), fun b cs hread => ?_⟩
      rw [feedAll_refused hn rfl hread hparse hfull hdeliver hlook]
      rfl
  | @delivered e e' q n s head keep hn hparse hfull hdeliver hlook hover hrest ih =>
      have hfinish : ∀ b left, finish p ⟨e, .header b, out⟩ head
          ((s.drop n).take (p.bodyLen head)) left = ⟨e', if keep then .header left else .closed,
            out ++ [p.message head ((s.drop n).take (p.bodyLen head))]⟩ := by
        intro b left
        simp only [finish, hdeliver]
      cases keep with
      | false =>
          refine ⟨(out ++ [p.message head ((s.drop n).take (p.bodyLen head))], true),
            fun b cs hread => ?_⟩
          obtain ⟨left, cs', -, hfeed⟩ := feedAll_delivered (r := ⟨e, .header b, out⟩) hn rfl
            hread hparse hfull hlook hover
          rw [hfeed, hfinish, feedAll_closed p rfl]
          rfl
      | true =>
          have hq' : min (max (n - 1) q + cap) s.length - (n + p.bodyLen head) < p.limit := by
            simp only [Overrun] at hover
            omega
          obtain ⟨res, hres⟩ := ih rfl hq' (out ++ [p.message head ((s.drop n).take (p.bodyLen head))])
          refine ⟨res, fun b cs hread => ?_⟩
          obtain ⟨left, cs', hread', hfeed⟩ := feedAll_delivered (r := ⟨e, .header b, out⟩) hn rfl
            hread hparse hfull hlook hover
          rw [hfeed, hfinish]
          exact hres left cs' hread'

/-! ### Readings that disagree -/

/-- A stream in chunks of one item. -/
def singles (s : List α) : List (List α) := s.map fun x => [x]

theorem flatten_singles (s : List α) : (singles s).flatten = s := by
  induction s with
  | nil => rfl
  | cons x s ih => simpa [singles] using ih

theorem chunks_singles {cap : ℕ} (hcap : 0 < cap) (s : List α) :
    ∀ c ∈ singles s, c ≠ [] ∧ c.length ≤ cap := by
  intro c hc
  obtain ⟨x, -, rfl⟩ := List.mem_map.mp hc
  exact ⟨by simp, hcap⟩

theorem reads_singles {cap : ℕ} (hcap : 0 < cap) (q : ℕ) (s : List α) :
    Reads cap q s [] (singles s) :=
  ⟨Nat.zero_le _, flatten_singles s, chunks_singles hcap s⟩

/-- More chunks behind a reading of a prefix. -/
theorem Reads.append {cap q k : ℕ} {s b : List α} {cs ds : List (List α)}
    (hread : Reads cap q (s.take k) b cs) (hds : ds.flatten = s.drop k)
    (hchunks : ∀ c ∈ ds, c ≠ [] ∧ c.length ≤ cap) : Reads cap q s b (cs ++ ds) := by
  refine ⟨hread.length_le, ?_, ?_⟩
  · rw [List.flatten_append, ← List.append_assoc, hread.flatten, hds, List.take_append_drop]
  · intro c hc
    rcases List.mem_append.mp hc with hc | hc
    · exact hread.chunks c hc
    · exact hchunks c hc

/-- A block that is seen fits into the buffer and into the stream. -/
theorem block_bounds {s : List α} {n : ℕ} (hn : p.blockLen (s.take (p.limit - 1)) = some n) :
    0 < n ∧ n < p.limit ∧ n ≤ s.length := by
  have hpos := p.blockLen_pos hn
  have hle := p.blockLen_le hn
  rw [List.length_take] at hle
  omega

/-- In chunks of one item the buffer does not overrun. -/
theorem not_overrun_one {s : List α} {n : ℕ}
    (hn : p.blockLen (s.take (p.limit - 1)) = some n) : ¬Overrun p 1 0 n s := by
  have := block_bounds hn
  simp only [Overrun]
  omega

/-- Delivered messages stay delivered. -/
theorem prefix_out_feedAll (r : Reader α H E M) (cs : List (List α)) :
    r.out <+: (feedAll p r cs).out := by
  have hfinish : ∀ (r : Reader α H E M) head body left, r.out <+: (finish p r head body left).out := by
    intro r head body left
    unfold finish
    split
    · exact List.prefix_rfl
    · exact List.prefix_append _ _
  have hheader : ∀ (r : Reader α H E M) buf c, r.out <+: (feedHeader p r buf c).out := by
    intro r buf c
    unfold feedHeader recognise startBody
    split
    · exact List.prefix_rfl
    · split
      · exact List.prefix_rfl
      · split
        · exact List.prefix_rfl
        · split
          · exact List.prefix_rfl
          · exact hfinish _ _ _ _
  have hnext : ∀ (r : Reader α H E M) c, r.out <+: (feedNext p r c).out := by
    intro r c
    unfold feedNext
    split
    · split
      · exact List.prefix_rfl
      · exact hheader _ _ _
    · exact List.prefix_rfl
    · exact List.prefix_rfl
  have hfeed : ∀ (r : Reader α H E M) c, r.out <+: (feed p r c).out := by
    intro r c
    unfold feed
    split
    · exact List.prefix_rfl
    · exact hheader _ _ _
    · simp only []
      split
      · exact List.prefix_rfl
      · exact (hfinish _ _ _ _).trans (hnext _ _)
  induction cs generalizing r with
  | nil => exact List.prefix_rfl
  | cons c cs ih => exact (hfeed r c).trans (ih _)

/-- Items one by one fill the buffer, as long as there is no block in it. -/
theorem feedAll_singles {b t : List α} (hn : p.blockLen (b ++ t) = none)
    (hlen : (b ++ t).length < p.limit) (e : E) (out : List M) :
    feedAll p ⟨e, .header b, out⟩ (singles t) = ⟨e, .header (b ++ t), out⟩ := by
  induction t generalizing b with
  | nil => simp [singles]
  | cons x t ih =>
      have happ : b ++ x :: t = b ++ [x] ++ t := by simp
      have hnone : p.blockLen (b ++ [x]) = none := by
        cases hx : p.blockLen (b ++ [x]) with
        | none => rfl
        | some n =>
            have := p.blockLen_append t hx
            rw [← happ, hn] at this
            cases this
      rw [happ] at hn hlen ⊢
      have hfeed : feed p ⟨e, .header b, out⟩ [x] = ⟨e, .header (b ++ [x]), out⟩ := by
        simp only [feed, feedHeader]
        rw [if_neg, hnone]
        simp only [List.length_append, List.length_singleton] at hlen ⊢
        omega
      rw [singles, List.map_cons, feedAll_cons, hfeed]
      exact ih hn hlen

/-- The buffer can be brought to hold `k` items that have not been looked at, or that are not
yet a block. -/
theorem exists_reads_header {cap q n k : ℕ} (hcap : 0 < cap) {s : List α}
    (hn : p.blockLen (s.take (p.limit - 1)) = some n) (hk : k < n ∨ k ≤ q)
    (hlimit : k < p.limit) :
    ∃ b cs, Reads cap q (s.take k) b cs ∧ ∀ (e : E) (out : List M),
      feedAll p ⟨e, .header b, out⟩ cs = ⟨e, .header (s.take k), out⟩ := by
  by_cases hq : k ≤ q
  · refine ⟨s.take k, [], ⟨(List.length_take_le _ _).trans hq, by simp, by simp⟩, ?_⟩
    intro e out
    rfl
  · have hlen := List.length_take_le k s
    have hnone : p.blockLen (s.take k) = none := by
      rw [blockLen_of_append hn (List.take_append_drop k s) (by omega), if_neg (by omega)]
    refine ⟨[], singles (s.take k), reads_singles hcap _ _, fun e out => ?_⟩
    exact feedAll_singles (b := []) hnone (by simpa using lt_of_le_of_lt hlen hlimit) e out

/-- Where the buffer can overrun, it does in some reading. -/
theorem exists_reads_closed {cap q n : ℕ} (hcap : 0 < cap) (hq : q < p.limit) {s : List α}
    (hn : p.blockLen (s.take (p.limit - 1)) = some n) (hover : Overrun p cap q n s) :
    ∃ b cs, Reads cap q s b cs ∧ ∀ (e : E) (out : List M),
      feedAll p ⟨e, .header b, out⟩ cs = ⟨e, .closed, out⟩ := by
  obtain ⟨hpos, hnlimit, -⟩ := block_bounds hn
  obtain ⟨hm, hlen⟩ := hover
  have hk : max (n - 1) q < n ∨ max (n - 1) q ≤ q := by omega
  have hklimit : max (n - 1) q < p.limit := by omega
  generalize max (n - 1) q = k at *
  obtain ⟨b, cs, hread, hfeed⟩ := exists_reads_header hcap hn hk hklimit
  -- the chunk that fills the buffer, and the rest of the stream
  have hchunk : ((s.drop k).take (p.limit - k)).length = p.limit - k := by
    rw [List.length_take, List.length_drop]
    omega
  refine ⟨b, cs ++ (s.drop k).take (p.limit - k) :: singles (s.drop p.limit), ?_, ?_⟩
  · refine hread.append ?_ ?_
    · rw [List.flatten_cons, flatten_singles]
      conv_rhs => rw [← List.take_append_drop (p.limit - k) (s.drop k), List.drop_drop]
      rw [show k + (p.limit - k) = p.limit by omega]
    · refine List.forall_mem_cons.mpr ⟨⟨?_, by omega⟩, chunks_singles hcap _⟩
      rw [← List.length_pos_iff]
      omega
  · intro e out
    have hfull : feed p ⟨e, .header (s.take k), out⟩ ((s.drop k).take (p.limit - k)) =
        ⟨e, .closed, out⟩ := by
      simp only [feed, feedHeader, hchunk]
      rw [if_pos]
      rw [List.length_take_of_le (by omega)]
      omega
    rw [feedAll_append, hfeed, feedAll_cons, hfull, feedAll_closed p rfl]

/-- A message read item by item, and nothing behind it. -/
theorem feedAll_singles_message {s : List α} {n : ℕ} {head : H}
    (hn : p.blockLen (s.take (p.limit - 1)) = some n) (hparse : p.parse (s.take n) = some head)
    (hfull : n + p.bodyLen head ≤ s.length) (e : E) (out : List M) :
    feedAll p ⟨e, .header [], out⟩ (singles (s.take (n + p.bodyLen head))) =
      finish p ⟨e, .header [], out⟩ head ((s.drop n).take (p.bodyLen head)) [] := by
  obtain ⟨hpos, hnlimit, hnle⟩ := block_bounds hn
  generalize hN : n + p.bodyLen head = N at *
  have hlen : (s.take N).length = N := List.length_take_of_le hfull
  have hn' : p.blockLen ((s.take N).take (p.limit - 1)) = some n := by
    rw [List.take_take, blockLen_of_append hn (List.take_append_drop _ s)
      ((List.length_take_le _ _).trans (by omega)), if_pos]
    rw [List.length_take]
    omega
  have hparse' : p.parse ((s.take N).take n) = some head := by
    rw [List.take_take, Nat.min_eq_left (by omega), hparse]
  obtain ⟨left, cs, hread, hfeed⟩ := feedAll_delivered (r := ⟨e, .header [], out⟩) hn' rfl
    (reads_singles Nat.one_pos 0 _) hparse' (by omega) (by omega) (not_overrun_one hn')
  -- nothing is left of the stream
  have hflat := hread.flatten
  rw [hN, List.drop_take, Nat.sub_self, List.take_zero, List.append_eq_nil_iff] at hflat
  have hnil : cs = [] := by
    cases cs with
    | nil => rfl
    | cons c cs =>
        rw [List.flatten_cons, List.append_eq_nil_iff] at hflat
        exact absurd hflat.2.1 (hread.chunks c (by simp)).1
  rw [hfeed, hflat.1, hnil, feedAll_nil, List.drop_take, List.take_take,
    Nat.min_eq_left (by omega)]

/-- A chunk that completes a message, with the first `j` items of the stream in the buffer. -/
theorem feed_message {s b c : List α} {n j : ℕ} {head : H}
    (hn : p.blockLen (s.take (p.limit - 1)) = some n) (hparse : p.parse (s.take n) = some head)
    (hbuf : b ++ c = s.take j) (hj : j ≤ s.length) (hjlimit : j < p.limit)
    (hfull : n + p.bodyLen head ≤ j) (e : E) (out : List M) :
    feed p ⟨e, .header b, out⟩ c = finish p ⟨e, .header [], out⟩ head
      ((s.drop n).take (p.bodyLen head)) ((s.drop (n + p.bodyLen head)).take
        (j - (n + p.bodyLen head))) := by
  have hlen : (s.take j).length = j := List.length_take_of_le hj
  have hblock : p.blockLen (s.take j) = some n := by
    rw [blockLen_of_append hn (List.take_append_drop j s) (by omega), if_pos (by omega)]
  have hroom : ¬p.limit ≤ b.length + c.length := by
    rw [← List.length_append, hbuf]
    omega
  have hparse' : p.parse ((s.take j).take n) = some head := by
    rw [List.take_take, Nat.min_eq_left (by omega), hparse]
  have hrest : ¬((s.take j).drop n).length < p.bodyLen head := by
    rw [List.length_drop]
    omega
  simp only [feed, feedHeader, hroom, if_false, hbuf, hblock, recognise, hparse', startBody, hrest]
  rw [List.drop_drop, List.drop_take, List.drop_take, List.take_take, Nat.min_eq_left (by omega)]
  rfl

/-- Every reading of what follows a message comes from a reading of the whole stream. -/
theorem exists_reads_delivered {cap q n : ℕ} (hcap : 0 < cap) {s : List α} {head : H}
    (hn : p.blockLen (s.take (p.limit - 1)) = some n) (hparse : p.parse (s.take n) = some head)
    (hfull : n + p.bodyLen head ≤ s.length) (hover : ¬Overrun p cap q n s) {left : List α}
    {cs' : List (List α)}
    (hread' : Reads cap (min (max (n - 1) q + cap) s.length - (n + p.bodyLen head))
      (s.drop (n + p.bodyLen head)) left cs') :
    ∃ b cs, Reads cap q s b cs ∧ ∀ (e : E) (out : List M),
      feedAll p ⟨e, .header b, out⟩ cs = feedAll p (finish p ⟨e, .header [], out⟩ head
        ((s.drop n).take (p.bodyLen head)) left) cs' := by
  obtain ⟨hpos, hnlimit, -⟩ := block_bounds hn
  obtain ⟨hle, hflat, hchunks⟩ := hread'
  by_cases hleft : left = []
  · subst hleft
    refine ⟨[], singles (s.take (n + p.bodyLen head)) ++ cs', ?_, fun e out => ?_⟩
    · exact (reads_singles hcap q _).append hflat hchunks
    · rw [feedAll_append, feedAll_singles_message hn hparse hfull]
  · -- the last chunk of the message ends with `left`
    have hpos' := List.length_pos_iff.mpr hleft
    simp only [Overrun] at hover
    generalize hj : n + p.bodyLen head + left.length = j
    generalize hm : max (n - 1) q = m at *
    have hk : min m (j - 1) < n ∨ min m (j - 1) ≤ q := by omega
    have hklimit : min m (j - 1) < p.limit := by omega
    have hkj : min m (j - 1) < j ∧ j - min m (j - 1) ≤ cap := by omega
    generalize min m (j - 1) = k at *
    obtain ⟨b, cs, hread, hfeed⟩ := exists_reads_header hcap hn hk hklimit
    have hjs : j ≤ s.length := by omega
    have hchunk : ((s.drop k).take (j - k)).length = j - k := by
      rw [List.length_take, List.length_drop]
      omega
    have hrest : cs'.flatten = s.drop j := by
      have : (left ++ cs'.flatten).drop left.length = s.drop j := by
        rw [hflat, List.drop_drop, hj]
      rwa [List.drop_left] at this
    have hbuf : s.take k ++ (s.drop k).take (j - k) = s.take j := by
      rw [← List.take_add, show k + (j - k) = j by omega]
    refine ⟨b, cs ++ (s.drop k).take (j - k) :: cs', ?_, fun e out => ?_⟩
    · refine hread.append ?_ ?_
      · rw [List.flatten_cons, hrest]
        conv_rhs => rw [← List.take_append_drop (j - k) (s.drop k), List.drop_drop]
        rw [show k + (j - k) = j by omega]
      · refine List.forall_mem_cons.mpr ⟨⟨?_, by omega⟩, hchunks⟩
        rw [← List.length_pos_iff]
        omega
    · have hleft' : (s.drop (n + p.bodyLen head)).take (j - (n + p.bodyLen head)) = left := by
        rw [← hflat, ← hj, Nat.add_sub_cancel_left, List.take_left]
      rw [feedAll_append, hfeed, feedAll_cons,
        feed_message hn hparse hbuf hjs (by omega) (by omega), hleft']

/-- Agreement on a stream is agreement on what follows its first message. -/
theorem Agree.rest {cap q n : ℕ} (hcap : 0 < cap) {e e' : E} {s : List α} {head : H}
    {out : List M} (hagree : Agree p cap e q s out)
    (hn : p.blockLen (s.take (p.limit - 1)) = some n) (hparse : p.parse (s.take n) = some head)
    (hfull : n + p.bodyLen head ≤ s.length) (hover : ¬Overrun p cap q n s)
    (hdeliver : p.deliver e head ((s.drop n).take (p.bodyLen head)) = some (e', true)) :
    Agree p cap e' (min (max (n - 1) q + cap) s.length - (n + p.bodyLen head))
      (s.drop (n + p.bodyLen head)) (out ++ [p.message head ((s.drop n).take (p.bodyLen head))]) := by
  intro b₁ cs₁ b₂ cs₂ h₁ h₂
  obtain ⟨c₁, ds₁, hread₁, hfeed₁⟩ := exists_reads_delivered hcap hn hparse hfull hover h₁
  obtain ⟨c₂, ds₂, hread₂, hfeed₂⟩ := exists_reads_delivered hcap hn hparse hfull hover h₂
  have hsame := hagree _ _ _ _ hread₁ hread₂
  rw [hfeed₁, hfeed₂] at hsame
  simpa only [finish, hdeliver, if_true] using hsame

/-- Where the outcome does not depend on how the stream is read, the stream is safe. -/
theorem Agree.safe {cap q : ℕ} (hcap : 0 < cap) (hq : q < p.limit) {e : E} {s : List α}
    {out : List M} (hagree : Agree p cap e q s out) : Safe p cap e q s := by
  induction hlen : s.length using Nat.strong_induction_on generalizing e q s out with
  | _ len ih =>
      subst hlen
      -- the stream in the buffer as a whole, when there is room for it
      have hwhole : s.length ≤ q → Reads cap q s s [] := fun hle => ⟨hle, by simp, by simp⟩
      have hone := reads_singles Nat.one_pos 0 s
      have hsingles := reads_singles hcap q s
      cases hn : p.blockLen (s.take (p.limit - 1)) with
      | none => exact .noBlock hn
      | some n =>
          obtain ⟨hpos, hnlimit, hnle⟩ := block_bounds hn
          cases hparse : p.parse (s.take n) with
          | none =>
              refine .rejected hn hparse (not_le.mp fun hle => ?_)
              have hdiff := hagree _ _ _ _ (hwhole hle) hsingles
              rw [feedAll_rejected hn rfl hone hparse (by omega)] at hdiff
              cases congrArg Prod.snd hdiff
          | some head =>
              by_cases hfull : n + p.bodyLen head ≤ s.length
              · cases hdeliver : p.deliver e head ((s.drop n).take (p.bodyLen head)) with
                | none =>
                    refine .refused hn hparse hfull hdeliver (not_le.mp fun hle => ?_)
                    have hdiff := hagree _ _ _ _ (hwhole hle) hsingles
                    rw [feedAll_refused hn rfl hone hparse hfull hdeliver (by omega)] at hdiff
                    cases congrArg Prod.snd hdiff
                | some res =>
                    obtain ⟨e', keep⟩ := res
                    have hfinish : ∀ left, finish p ⟨e, .header [], out⟩ head
                        ((s.drop n).take (p.bodyLen head)) left =
                          ⟨e', if keep then .header left else .closed,
                            out ++ [p.message head ((s.drop n).take (p.bodyLen head))]⟩ := by
                      intro left
                      simp only [finish, hdeliver]
                    -- every reading delivers the message, as reading item by item does
                    have hmore : ∀ b cs, Reads cap q s b cs →
                        (feedAll p ⟨e, .header b, out⟩ cs).out ≠ out := by
                      intro b cs hread hout
                      have hdiff := congrArg Prod.fst (hagree _ _ _ _ hread hsingles)
                      obtain ⟨left, cs', -, hfeed⟩ := feedAll_delivered
                        (r := ⟨e, .header [], out⟩) hn rfl hone hparse hfull (by omega)
                        (not_overrun_one hn)
                      have hlen := (prefix_out_feedAll (p := p) (finish p ⟨e, .header [], out⟩ head
                        ((s.drop n).take (p.bodyLen head)) left) cs').length_le
                      rw [← hfeed, hfinish] at hlen
                      simp only [Reader.outcome, hout] at hdiff
                      rw [← hdiff, List.length_append, List.length_singleton] at hlen
                      omega
                    have hlook : q < s.length :=
                      not_le.mp fun hle => hmore _ _ (hwhole hle) rfl
                    have hover : ¬Overrun p cap q n s := by
                      intro hover
                      obtain ⟨b, cs, hread, hclosed⟩ := exists_reads_closed hcap hq hn hover
                      exact hmore b cs hread (by rw [hclosed])
                    refine .delivered hn hparse hfull hdeliver hlook hover fun hkeep => ?_
                    subst hkeep
                    have hq' : min (max (n - 1) q + cap) s.length - (n + p.bodyLen head) <
                        p.limit := by
                      simp only [Overrun] at hover
                      omega
                    exact ih _ (by rw [List.length_drop]; omega) hq'
                      (hagree.rest hcap hn hparse hfull hover hdeliver) rfl
              · refine .waiting hn hparse (by omega) fun hover => ?_
                obtain ⟨b, cs, hread, hclosed⟩ := exists_reads_closed hcap hq hn hover
                have hdiff := hagree _ _ _ _ hread hsingles
                rw [hclosed, outcome_waiting hn rfl hone hparse (by omega)
                  (not_overrun_one hn)] at hdiff
                cases congrArg Prod.snd hdiff

/-- The reader does the same thing with a stream, however it arrives, exactly if the stream is
safe. -/
theorem agree_iff_safe {cap q : ℕ} (hcap : 0 < cap) (hq : q < p.limit) {e : E} {s : List α}
    {out : List M} : Agree p cap e q s out ↔ Safe p cap e q s :=
  ⟨fun hagree => hagree.safe hcap hq, fun hsafe => hsafe.agree hq out⟩

end Framing
