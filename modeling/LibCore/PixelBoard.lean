import Mathlib.Data.List.Count
import Mathlib.Data.List.GetD
import Mathlib.Tactic

/-!
# The Pixel Board

`pixel_board.c`: a canvas of `width * height` pixels with the number of pixels of each team and
a version that moves with every change. The scores are kept up to date one pixel at a time;
they are never counted.

## Main definitions

* `Board`, `Board.clear`, `Board.paint`: the board and its operations.
* `Board.Accounted`: the scores are the numbers of pixels.
* `changes`: the number of places in which two canvases differ.

## Main results

* `Board.Accounted.paint`, `Board.accounted_clear`: the scores stay right.
* `Board.Stroke.paint`: the version moves on by one for every pixel a stroke changes.
-/

namespace PixelWar

/-- `PixelTeam`. -/
inductive Team
  | empty
  | red
  | blue
deriving DecidableEq

/-- `PixelPaintResult`. -/
inductive PixelResult
  | error
  | unchanged
  | changed
deriving DecidableEq

/-- `PixelBoard`; the canvas row by row. -/
structure Board where
  width : UInt16
  height : UInt16
  pixels : List Team
  redScore : UInt32
  blueScore : UInt32
  emptyCount : UInt32
  sequence : UInt64

namespace Board

/-- `new_PixelBoard`, when its allocations succeed. -/
def new (width height : UInt16) : Option Board :=
  if width = 0 ∨ height = 0 then none
  else
    let emptyCount := width.toUInt32 * height.toUInt32
    some ⟨width, height, List.replicate emptyCount.toNat .empty, 0, 0, emptyCount, 0⟩

/-- `PixelBoard_clear`. -/
def clear (self : Board) : Board :=
  let totalPixels := self.width.toNat * self.height.toNat
  { self with
    pixels := List.replicate totalPixels .empty
    redScore := 0
    blueScore := 0
    emptyCount := UInt32.ofNat totalPixels
    sequence := self.sequence + 1 }

/-- The scores when a pixel of one team becomes one of another. -/
def score (self : Board) (prev team : Team) : Board :=
  match prev with
  | .empty =>
      let self := { self with emptyCount := self.emptyCount - 1 }
      if team = .red then { self with redScore := self.redScore + 1 }
      else { self with blueScore := self.blueScore + 1 }
  | .red => { self with redScore := self.redScore - 1, blueScore := self.blueScore + 1 }
  | .blue => { self with blueScore := self.blueScore - 1, redScore := self.redScore + 1 }

/-- The place of a pixel on the canvas. -/
def index (self : Board) (x y : UInt16) : ℕ := y.toNat * self.width.toNat + x.toNat

/-- `PixelBoard_paint`. -/
def paint (self : Board) (x y : UInt16) (team : Team) : PixelResult × Board :=
  if x ≥ self.width ∨ y ≥ self.height then (.error, self)
  else if team ≠ .red ∧ team ≠ .blue then (.error, self)
  else
    let idx := self.index x y
    let prev := self.pixels.getD idx .empty
    if prev = team then (.unchanged, self)
    else
      let self := self.score prev team
      (.changed, { self with
        pixels := self.pixels.set idx team, sequence := self.sequence + 1 })

@[simp] theorem score_pixels (self : Board) (prev team : Team) :
    (self.score prev team).pixels = self.pixels := by
  cases prev <;> cases team <;> rfl

@[simp] theorem score_sequence (self : Board) (prev team : Team) :
    (self.score prev team).sequence = self.sequence := by
  cases prev <;> cases team <;> rfl

@[simp] theorem score_size (self : Board) (prev team : Team) :
    (self.score prev team).width = self.width ∧ (self.score prev team).height = self.height := by
  cases prev <;> cases team <;> exact ⟨rfl, rfl⟩

/-- A call of `PixelBoard_paint` does nothing, or it changes the colour of one pixel. -/
theorem paint_cases (self : Board) (x y : UInt16) (team : Team) :
    ((self.paint x y team).1 ≠ .changed ∧ (self.paint x y team).2 = self) ∨
      (x < self.width ∧ y < self.height ∧ (team = .red ∨ team = .blue) ∧
        self.pixels.getD (self.index x y) .empty ≠ team ∧ (self.paint x y team).1 = .changed ∧
        (self.paint x y team).2 =
          { self.score (self.pixels.getD (self.index x y) .empty) team with
            pixels := self.pixels.set (self.index x y) team, sequence := self.sequence + 1 }) := by
  rw [paint]
  simp only
  split_ifs with hout hteam hsame
  · exact .inl ⟨by simp, rfl⟩
  · exact .inl ⟨by simp, rfl⟩
  · exact .inl ⟨by simp, rfl⟩
  · rw [not_or, UInt16.not_le, UInt16.not_le] at hout
    have hcolour : team = .red ∨ team = .blue := by tauto
    exact .inr ⟨hout.1, hout.2, hcolour, hsame, rfl, by simp⟩

/-! ### The scores -/

/-- The scores are the numbers of pixels. -/
structure Accounted (b : Board) : Prop where
  length : b.pixels.length = b.width.toNat * b.height.toNat
  red : b.redScore.toNat = b.pixels.count .red
  blue : b.blueScore.toNat = b.pixels.count .blue
  empty : b.emptyCount.toNat = b.pixels.count .empty

theorem area_lt (width height : UInt16) : width.toNat * height.toNat < 2 ^ 32 := by
  have hw := width.toNat_lt
  have hh := height.toNat_lt
  calc width.toNat * height.toNat ≤ (2 ^ 16 - 1) * (2 ^ 16 - 1) :=
        Nat.mul_le_mul (by omega) (by omega)
    _ < 2 ^ 32 := by norm_num

theorem accounted_replicate {b : Board}
    (hp : b.pixels = List.replicate (b.width.toNat * b.height.toNat) .empty)
    (hr : b.redScore = 0) (hb : b.blueScore = 0)
    (he : b.emptyCount.toNat = b.width.toNat * b.height.toNat) : Accounted b where
  length := by rw [hp, List.length_replicate]
  red := by simp [hp, hr, List.count_replicate]
  blue := by simp [hp, hb, List.count_replicate]
  empty := by rw [hp, he, List.count_replicate_self]

theorem accounted_new {width height : UInt16} {b : Board} (h : new width height = some b) :
    Accounted b := by
  rw [new] at h
  split_ifs at h
  obtain rfl := Option.some.inj h
  have harea : (width.toUInt32 * height.toUInt32).toNat = width.toNat * height.toNat := by
    have := area_lt width height
    rw [UInt32.toNat_mul, UInt16.toNat_toUInt32, UInt16.toNat_toUInt32]
    omega
  refine accounted_replicate ?_ rfl rfl harea
  simp only [harea]

theorem accounted_clear (b : Board) : Accounted b.clear := by
  refine accounted_replicate rfl rfl rfl ?_
  have := area_lt b.width b.height
  show (UInt32.ofNat (b.width.toNat * b.height.toNat)).toNat = b.width.toNat * b.height.toNat
  rw [UInt32.toNat_ofNat']
  omega

/-- The pixels of the three teams are all there are. -/
theorem count_add_count (pixels : List Team) :
    pixels.count .red + pixels.count .blue + pixels.count .empty = pixels.length := by
  induction pixels with
  | nil => rfl
  | cons t pixels ih => cases t <;> simp <;> omega

theorem Accounted.sum {b : Board} (h : Accounted b) :
    b.redScore.toNat + b.blueScore.toNat + b.emptyCount.toNat =
      b.width.toNat * b.height.toNat := by
  rw [h.red, h.blue, h.empty, count_add_count, h.length]

/-- A pixel inside the board has its place on the canvas. -/
theorem Accounted.index_lt {b : Board} (h : Accounted b) {x y : UInt16}
    (hx : x < b.width) (hy : y < b.height) : b.index x y < b.pixels.length := by
  rw [UInt16.lt_iff_toNat_lt] at hx hy
  rw [h.length, index]
  calc y.toNat * b.width.toNat + x.toNat < (y.toNat + 1) * b.width.toNat := by
        rw [Nat.add_mul]; omega
    _ ≤ b.width.toNat * b.height.toNat := by
        rw [Nat.mul_comm b.width.toNat]
        exact Nat.mul_le_mul_right _ hy

/-- The pixels of every team after one pixel has got another colour. -/
theorem count_set {pixels : List Team} {idx : ℕ} (h : idx < pixels.length) {team t : Team}
    (hne : pixels.getD idx .empty ≠ team) :
    (pixels.set idx team).count t =
      if t = team then pixels.count t + 1
      else if t = pixels.getD idx .empty then pixels.count t - 1
      else pixels.count t := by
  rw [List.getD_eq_getElem _ _ h] at hne ⊢
  rw [List.count_set h]
  by_cases ht : t = team
  · subst ht
    simp [hne]
  · have ht' : ¬team = t := fun h => ht h.symm
    by_cases hp : t = pixels[idx]
    · simp [← hp, ht, ht']
    · have hp' : ¬pixels[idx] = t := fun h => hp h.symm
      simp [ht, ht', hp, hp']

/-- There is a pixel of the colour at a place. -/
theorem count_getD_pos {pixels : List Team} {idx : ℕ} (h : idx < pixels.length) :
    0 < pixels.count (pixels.getD idx .empty) := by
  rw [List.getD_eq_getElem _ _ h, List.count_pos_iff]
  exact List.getElem_mem h

/-- **The scores stay right** when a pixel changes its colour. -/
theorem Accounted.score {b : Board} (h : Accounted b) {idx : ℕ} (hidx : idx < b.pixels.length)
    {team : Team} (hteam : team = .red ∨ team = .blue) (hne : b.pixels.getD idx .empty ≠ team)
    (sequence : UInt64) :
    Accounted { b.score (b.pixels.getD idx .empty) team with
      pixels := b.pixels.set idx team, sequence := sequence } := by
  have hlt : b.pixels.length < 2 ^ 32 := h.length ▸ area_lt b.width b.height
  have hsum := count_add_count b.pixels
  have hpos := count_getD_pos hidx
  have hset := fun t => count_set hidx (t := t) hne
  have hr := h.red
  have hb := h.blue
  have he := h.empty
  generalize b.pixels.getD idx .empty = prev at *
  constructor
  · have hlen := h.length
    cases prev <;> rcases hteam with rfl | rfl <;> simpa [Board.score] using hlen
  all_goals
    simp only [hset]
    cases prev <;> rcases hteam with rfl | rfl <;>
      simp only [Board.score, ne_eq, not_true_eq_false, reduceCtorEq, if_true, if_false,
        UInt32.toNat_add, UInt32.toNat_sub, UInt32.reduceToNat] at hne ⊢ <;> omega

/-- Painting keeps the scores right. -/
theorem Accounted.paint {b : Board} (h : Accounted b) (x y : UInt16) (team : Team) :
    Accounted (b.paint x y team).2 := by
  obtain ⟨-, heq⟩ | ⟨hx, hy, hteam, hne, -, heq⟩ := b.paint_cases x y team
  · rwa [heq]
  · rw [heq]
    exact h.score (h.index_lt hx hy) hteam hne _

/-! ### The version -/

/-- The number of places in which two canvases differ. -/
def changes (a b : List Team) : ℕ := (a.zip b).countP fun p => p.1 ≠ p.2

theorem changes_self (a : List Team) : changes a a = 0 := by
  induction a with
  | nil => rfl
  | cons t a ih => simpa [changes] using ih

/-- A place that has kept its colour gets another one. -/
theorem changes_set {a b : List Team} {idx : ℕ} (ha : idx < a.length) (hb : idx < b.length)
    {team : Team} (hkept : b.getD idx .empty = a.getD idx .empty)
    (hne : b.getD idx .empty ≠ team) : changes a (b.set idx team) = changes a b + 1 := by
  induction a generalizing b idx with
  | nil => simp at ha
  | cons t a ih =>
      cases b with
      | nil => simp at hb
      | cons u b =>
          cases idx with
          | zero =>
              simp only [List.getD_cons_zero] at hkept hne
              subst hkept
              simp [changes, hne]
          | succ idx =>
              simp only [List.getD_cons_succ] at hkept hne
              have := ih (by simpa using ha) (by simpa using hb) hkept hne
              simp only [changes, List.set_cons_succ, List.zip_cons_cons, List.countP_cons] at this ⊢
              omega

/-- A **stroke**: some pixels have got the colour of a team, and the version has moved on by one
for each of them. -/
structure Stroke (team : Team) (b b' : Board) : Prop where
  width : b'.width = b.width
  height : b'.height = b.height
  length : b'.pixels.length = b.pixels.length
  colour : ∀ k, b'.pixels.getD k .empty = b.pixels.getD k .empty ∨ b'.pixels.getD k .empty = team
  sequence : b'.sequence = b.sequence + UInt64.ofNat (changes b.pixels b'.pixels)

theorem Stroke.refl (team : Team) (b : Board) : Stroke team b b :=
  ⟨rfl, rfl, rfl, fun _ => .inl rfl, by simp [changes_self]⟩

theorem getD_set {pixels : List Team} {idx : ℕ} (h : idx < pixels.length) (team : Team) (k : ℕ) :
    (pixels.set idx team).getD k .empty = if k = idx then team else pixels.getD k .empty := by
  simp only [List.getD_eq_getElem?_getD, List.getElem?_set]
  by_cases hk : k = idx
  · simp [hk, h]
  · simp [hk, Ne.symm hk]

/-- A stroke goes on, pixel after pixel. A pixel it has painted already does not change again. -/
theorem Stroke.paint {team : Team} {b b' : Board} (h : Stroke team b b') (hb : Accounted b')
    (x y : UInt16) : Stroke team b (b'.paint x y team).2 := by
  obtain ⟨-, heq⟩ | ⟨hx, hy, hteam, hne, -, heq⟩ := b'.paint_cases x y team
  · rwa [heq]
  · have hidx := hb.index_lt hx hy
    have hkept := (h.colour (b'.index x y)).resolve_right hne
    rw [heq]
    refine ⟨by simp [h.width], by simp [h.height], by simp [h.length], fun k => ?_, ?_⟩
    · show (b'.pixels.set _ team).getD k .empty = _ ∨ (b'.pixels.set _ team).getD k .empty = team
      rw [getD_set hidx]
      split_ifs with hk
      · exact .inr rfl
      · exact h.colour k
    · show b'.sequence + 1 = b.sequence + UInt64.ofNat (changes b.pixels (b'.pixels.set _ team))
      rw [changes_set (h.length ▸ hidx) hidx hkept hne, UInt64.ofNat_add, h.sequence, UInt64.add_assoc]
      rfl

end Board

end PixelWar
