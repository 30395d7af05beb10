import LibCore.GameRoomPaint
import LibCore.PixelHandler

/-!
# The Pixel Game Client

`ws.onmessage` of `toos_pixel.html`: the page keeps a canvas, the scores and what it knows of the
game, and works through the frames in the order they arrive. The buttons, the input fields and the
countdown are left out.

Every number of a frame becomes a `Number`, a binary floating point number with 53 significant
bits (`jsNumber`). The generation is the only one of those used here that has more than 32 bits.

## Main definitions

* `jsNumber`: the number that `JSON.parse` makes of a natural number.
* `Client`, `Client.onmessage`: the page and its handler.
* `Client.Shows`: the page shows the room.
-/

namespace PixelWar

/-- The `Number` nearest to a natural number, the even one of two, as long as it is finite. -/
def jsNumber (n : ℕ) : ℕ :=
  let ulp := 2 ^ (Nat.log2 n - 52)
  let q := n / ulp
  let r := n % ulp
  if 2 * r > ulp ∨ (2 * r = ulp ∧ q % 2 = 1) then (q + 1) * ulp else q * ulp

/-- Numbers of 53 bits are kept. -/
theorem jsNumber_of_lt {n : ℕ} (h : n < 2 ^ 53) : jsNumber n = n := by
  have hlog : Nat.log2 n - 52 = 0 := by
    by_cases hn : n = 0
    · subst hn
      rfl
    · have := (Nat.log2_lt hn).mpr h
      omega
  simp [jsNumber, hlog, Nat.mod_one]

namespace Board

/-- No pixel has a colour. -/
def IsBlank (b : Board) : Prop := ∀ team ∈ b.pixels, team = .empty

theorem IsBlank.get {b : Board} (h : b.IsBlank) {x y : UInt16} (hon : b.On x y) :
    b.get x y = .empty := by
  rw [get_eq hon, List.getD_eq_getElem?_getD]
  cases hget : b.pixels[b.index x y]? with
  | none => rfl
  | some team => exact h team (List.mem_of_getElem? hget)

/-- Nobody has a point on a blank board. -/
theorem IsBlank.scores {b : Board} (h : b.IsBlank) (hacc : b.Accounted) :
    b.redScore.toNat = 0 ∧ b.blueScore.toNat = 0 := by
  rw [hacc.red, hacc.blue, List.count_eq_zero, List.count_eq_zero]
  exact ⟨fun hred => absurd (h _ hred) (by simp), fun hblue => absurd (h _ hblue) (by simp)⟩

theorem isBlank_replicate {b : Board} {n : ℕ} (h : b.pixels = List.replicate n .empty) :
    b.IsBlank := by
  intro team hteam
  rw [h] at hteam
  exact List.eq_of_mem_replicate hteam

end Board

/-- The colours on the canvas. What is cleared is transparent. -/
inductive Colour
  | transparent
  | red
  | blue
  | dark
deriving DecidableEq

/-- The state of the page. -/
structure Client where
  gameRunning : Bool
  activeGeneration : ℕ
  width : ℕ
  height : ℕ
  pixels : ℕ → ℕ → Colour
  scoreRed : ℕ
  scoreBlue : ℕ
  emptyCount : ℤ
  /-- Whether the winner is shown. -/
  overlay : Bool

namespace Client

/-- The page when it is opened. -/
def opened : Client where
  gameRunning := false
  activeGeneration := 1
  width := 512
  height := 512
  pixels := fun _ _ => .transparent
  scoreRed := 0
  scoreBlue := 0
  emptyCount := 0
  overlay := false

/-- Set the size of the canvas, which clears it. -/
def setSize (v : Client) (width height : ℕ) : Client :=
  { v with width := width, height := height, pixels := fun _ _ => .transparent }

/-- `ctx.clearRect` over the canvas. -/
def clearRect (v : Client) : Client := { v with pixels := fun _ _ => .transparent }

/-- `ctx.fillRect` of one pixel: nothing happens off the canvas. -/
def fillRect (style : Colour) (v : Client) (cell : ℤ × ℤ) : Client :=
  if 0 ≤ cell.1 ∧ cell.1 < v.width ∧ 0 ≤ cell.2 ∧ cell.2 < v.height then
    { v with pixels := fun x y =>
        if (x : ℤ) = cell.1 ∧ (y : ℤ) = cell.2 then style else v.pixels x y }
  else v

/-- The pixels the loops over `dy` and `dx` fill. -/
def brushRects (x y brushSize : ℕ) : List (ℤ × ℤ) :=
  let offset : ℤ := brushSize / 2
  (List.range brushSize).flatMap fun dy => (List.range brushSize).map fun dx =>
    ((x : ℤ) - offset + dx, (y : ℤ) - offset + dy)

/-- The fill style for the team of a `PAINT_APPLIED`. -/
def fillStyle : Team → Colour
  | .red => .red
  | .blue => .blue
  | .empty => .dark

/-- `ROOM_STATUS`. -/
def onRoomStatus (v : Client) (state : RoomState) (generation width height redScore blueScore : ℕ) :
    Client :=
  let generationChanged := v.activeGeneration ≠ generation
  let v := { v with activeGeneration := generation }
  let sizeChanged := v.width ≠ width ∨ v.height ≠ height
  let v := if sizeChanged then v.setSize width height else v
  let v := if sizeChanged ∨ generationChanged then { v.clearRect with overlay := false } else v
  { v with
    scoreRed := redScore
    scoreBlue := blueScore
    emptyCount := (width * height : ℤ) - redScore - blueScore
    gameRunning := decide (state = .running) }

/-- `GAME_STARTED`. -/
def onGameStarted (v : Client) (generation width height : ℕ) : Client :=
  { (v.setSize width height).clearRect with
    gameRunning := true
    activeGeneration := generation
    emptyCount := width * height
    scoreRed := 0
    scoreBlue := 0
    overlay := false }

/-- `PAINT_APPLIED`. -/
def onPaintApplied (v : Client) (generation x y brushSize : ℕ) (team : Team)
    (redScore blueScore : ℕ) : Client :=
  if generation ≠ v.activeGeneration then v
  else
    let v := (brushRects x y brushSize).foldl (fillRect (fillStyle team)) v
    { v with
      scoreRed := redScore
      scoreBlue := blueScore
      emptyCount := (v.width * v.height : ℤ) - redScore - blueScore }

/-- `GAME_OVER`. -/
def onGameOver (v : Client) (generation : ℕ) : Client :=
  if generation ≠ v.activeGeneration then v else { v with gameRunning := false, overlay := true }

/-- `ws.onmessage`. -/
def onmessage (v : Client) : Frame → Client
  | .roomStatus state _ _ _ generation width height _ _ _ redScore blueScore =>
      v.onRoomStatus state (jsNumber generation.toNat) width.toNat height.toNat redScore.toNat
        blueScore.toNat
  | .gameStarted generation width height _ _ _ =>
      v.onGameStarted (jsNumber generation.toNat) width.toNat height.toNat
  | .paintApplied generation _ x y brushSize team redScore blueScore =>
      v.onPaintApplied (jsNumber generation.toNat) x.toNat y.toNat brushSize.toNat team
        redScore.toNat blueScore.toNat
  | .gameOver _ _ _ generation => v.onGameOver (jsNumber generation.toNat)
  | .ack _ _ => v
  | .joinAck _ _ _ => v

/-! ### Strokes -/

/-- The loops of a stroke fill the places they visit. -/
theorem foldl_fillRect (style : Colour) (cells : List (ℤ × ℤ)) (v : Client) :
    cells.foldl (fillRect style) v = { v with pixels := fun x y =>
      if x < v.width ∧ y < v.height ∧ ((x : ℤ), (y : ℤ)) ∈ cells then style else v.pixels x y } := by
  induction cells generalizing v with
  | nil => simp
  | cons cell cells ih =>
      rw [List.foldl_cons, ih, fillRect]
      split_ifs with hin
      · simp only [mk.injEq, true_and, and_true]
        funext x y
        have hcell : ((x : ℤ), (y : ℤ)) = cell ↔ (x : ℤ) = cell.1 ∧ (y : ℤ) = cell.2 := Prod.ext_iff
        by_cases hhead : (x : ℤ) = cell.1 ∧ (y : ℤ) = cell.2
        · have hx : x < v.width ∧ y < v.height := by omega
          simp only [List.mem_cons, hhead, hx, and_self, true_or, if_true, ite_self]
        · simp only [List.mem_cons, hcell, hhead, false_or, if_false]
      · simp only [mk.injEq, true_and, and_true]
        funext x y
        have hoff : x < v.width → y < v.height → ((x : ℤ), (y : ℤ)) ≠ cell := by
          rintro hx hy rfl
          exact hin ⟨by omega, by omega, by omega, by omega⟩
        refine if_congr (and_congr_right fun hx => and_congr_right fun hy => ?_) rfl rfl
        simp [hoff hx hy]

/-! ### What the page shows -/

/-- The colour of a pixel of the board on the canvas. -/
def colourOf : Team → Colour
  | .empty => .transparent
  | .red => .red
  | .blue => .blue

/-- The canvas shows a board. -/
structure Mirrors (v : Client) (board : Board) : Prop where
  width : v.width = board.width.toNat
  height : v.height = board.height.toNat
  pixels : ∀ x y, board.On x y → v.pixels x.toNat y.toNat = colourOf (board.get x y)

/-- The page **shows a room**: its board, its scores, and whether the game is on or over. -/
structure Shows (room : Room) (v : Client) : Prop where
  generation : v.activeGeneration = room.generation.toNat
  board : v.Mirrors room.board
  scoreRed : v.scoreRed = room.board.redScore.toNat
  scoreBlue : v.scoreBlue = room.board.blueScore.toNat
  emptyCount : v.emptyCount = room.board.emptyCount.toNat
  running : v.gameRunning = decide (room.state = .running)
  overlay : v.overlay = decide (room.state = .finished)

/-- Nothing has been painted on the page. -/
structure Blank (v : Client) : Prop where
  pixels : ∀ x y, v.pixels x y = .transparent
  overlay : v.overlay = false

/-! ### The frames of the server -/

variable {v : Client} {room room' : Room}

/-- The page goes by the board, the generation and the state of a room. -/
theorem Shows.congr (h : Shows room v) (hboard : room'.board = room.board)
    (hgen : room'.generation = room.generation) (hstate : room'.state = room.state) :
    Shows room' v := by
  obtain ⟨h1, h2, h3, h4, h5, h6, h7⟩ := h
  rw [← hboard] at h2 h3 h4 h5
  rw [← hgen] at h1
  rw [← hstate] at h6 h7
  exact ⟨h1, h2, h3, h4, h5, h6, h7⟩

theorem emptyCount_eq {board : Board} (hb : board.Accounted) :
    ((board.width.toNat * board.height.toNat : ℤ) - board.redScore.toNat - board.blueScore.toNat) =
      board.emptyCount.toNat := by
  have hsum := hb.sum
  rw [← Nat.cast_mul, ← hsum]
  omega

/-- A `ROOM_STATUS` clears the canvas of another size or generation. -/
theorem onRoomStatus_eq (v : Client) (state : RoomState)
    (generation width height redScore blueScore : ℕ) :
    v.onRoomStatus state generation width height redScore blueScore =
      let clears := (v.width ≠ width ∨ v.height ≠ height) ∨ v.activeGeneration ≠ generation
      { gameRunning := decide (state = .running)
        activeGeneration := generation
        width := width
        height := height
        pixels := if clears then fun _ _ => .transparent else v.pixels
        scoreRed := redScore
        scoreBlue := blueScore
        emptyCount := (width * height : ℤ) - redScore - blueScore
        overlay := if clears then false else v.overlay } := by
  simp only [onRoomStatus]
  by_cases hsize : v.width ≠ width ∨ v.height ≠ height
  · simp only [hsize, true_or, if_true]
    rfl
  · have hsame := not_or.mp hsize
    rw [not_not, not_not] at hsame
    obtain ⟨rfl, rfl⟩ := hsame
    by_cases hgen : v.activeGeneration ≠ generation
    · simp only [if_neg hsize, if_pos (Or.inr hgen)]
      rfl
    · simp only [if_neg hsize, if_neg (not_or.mpr ⟨hsize, hgen⟩)]

/-- A `ROOM_STATUS` for the generation on the page leaves the canvas alone. -/
theorem Mirrors.roomStatus (hmirrors : v.Mirrors room.board)
    (hgen : v.activeGeneration = room.generation.toNat)
    (hoverlay : v.overlay = decide (room.state = .finished)) (hacc : room.board.Accounted)
    (hsafe : room.generation.toNat < 2 ^ 53) : Shows room (v.onmessage (roomStatusFrame room)) := by
  rw [roomStatusFrame, onmessage, jsNumber_of_lt hsafe, onRoomStatus_eq]
  simp only [hmirrors.width, hmirrors.height, hgen, ne_eq, not_true_eq_false, or_self, if_false]
  exact ⟨rfl, ⟨rfl, rfl, hmirrors.pixels⟩, rfl, rfl, emptyCount_eq hacc, rfl, hoverlay⟩

theorem Shows.roomStatus (h : Shows room v) (hacc : room.board.Accounted)
    (hsafe : room.generation.toNat < 2 ^ 53) : Shows room (v.onmessage (roomStatusFrame room)) :=
  h.board.roomStatus h.generation h.overlay hacc hsafe

/-- A `ROOM_STATUS` of a new generation clears the canvas; a blank canvas need not be cleared. -/
theorem roomStatus_blank (hv : v.Blank ∨ v.activeGeneration ≠ room.generation.toNat)
    (hblank : room.board.IsBlank) (hstate : room.state = .waiting) (hacc : room.board.Accounted)
    (hsafe : room.generation.toNat < 2 ^ 53) : Shows room (v.onmessage (roomStatusFrame room)) := by
  rw [roomStatusFrame, onmessage, jsNumber_of_lt hsafe, onRoomStatus_eq]
  have hpixels : ∀ x y, room.board.On x y → Colour.transparent = colourOf (room.board.get x y) := by
    intro x y hon
    rw [hblank.get hon]
    rfl
  have hover : false = decide (room.state = .finished) := by
    rw [hstate]
    rfl
  simp only
  split_ifs with hclears
  · exact ⟨rfl, ⟨rfl, rfl, hpixels⟩, rfl, rfl, emptyCount_eq hacc, rfl, hover⟩
  · have hb := hv.resolve_right fun h => hclears (.inr h)
    refine ⟨rfl, ⟨rfl, rfl, fun x y hon => ?_⟩, rfl, rfl, emptyCount_eq hacc, rfl, ?_⟩
    · exact (hb.pixels _ _).trans (hpixels x y hon)
    · exact hb.overlay.trans hover

/-- A blank page stays blank at a `ROOM_STATUS`. -/
theorem Blank.roomStatus (h : v.Blank) (room : Room) :
    (v.onmessage (roomStatusFrame room)).Blank := by
  rw [roomStatusFrame, onmessage, onRoomStatus_eq]
  simp only
  split_ifs
  · exact ⟨fun _ _ => rfl, rfl⟩
  · exact ⟨h.pixels, h.overlay⟩

/-- `GAME_STARTED`, for a game on a blank board. -/
theorem gameStarted_blank (hblank : room.board.IsBlank) (hstate : room.state = .running)
    (hacc : room.board.Accounted) (hsafe : room.generation.toNat < 2 ^ 53) (nowMs : UInt64)
    (v : Client) :
    Shows room (v.onmessage (.gameStarted room.generation room.board.width room.board.height
      room.brushSize nowMs room.endsAtMs)) := by
  have hzero := hblank.scores hacc
  rw [onmessage, jsNumber_of_lt hsafe, onGameStarted]
  refine ⟨rfl, ⟨rfl, rfl, fun x y hon => ?_⟩, hzero.1.symm, hzero.2.symm, ?_, ?_, ?_⟩
  · rw [hblank.get hon]
    rfl
  · rw [← emptyCount_eq hacc, hzero.1, hzero.2]
    simp
  · rw [hstate]
    rfl
  · rw [hstate]
    rfl

/-- The frames of `GameRoomHandler_on_game_over`. -/
theorem Shows.gameOver (h : Shows room v) (hacc : room.board.Accounted)
    (hsafe : room.generation.toNat < 2 ^ 53) (hroom : room' = { room with state := .finished }) :
    Shows room' ((v.onmessage (gameOverFrame room')).onmessage (roomStatusFrame room')) := by
  subst hroom
  have hover : v.onmessage (gameOverFrame { room with state := .finished }) =
      { v with gameRunning := false, overlay := true } := by
    rw [gameOverFrame, onmessage, jsNumber_of_lt hsafe, Client.onGameOver, if_neg]
    exact not_not.mpr h.generation.symm
  rw [hover]
  refine Mirrors.roomStatus (v := { v with gameRunning := false, overlay :=
    true }) ?_ h.generation rfl hacc hsafe
  exact ⟨h.board.width, h.board.height, h.board.pixels⟩

/-- The stroke of a `PAINT_APPLIED` makes the canvas show the board after the stroke. -/
theorem Mirrors.stroke (h : v.Mirrors room.board) (hacc : room.board.Accounted) {team : Team}
    (hteam : team = .red ∨ team = .blue) (x y : UInt16) :
    ((brushRects x.toNat y.toNat room.brushSize.toNat).foldl (fillRect (fillStyle team)) v).Mirrors
      ((Room.brushCells room.brushSize x y).foldl (Room.paintCell team) (false, room.board)).2 := by
  obtain ⟨hsize, hget, -⟩ :=
    Room.foldl_paintCell_get hteam (Room.brushCells room.brushSize x y)
      (show (false, room.board).2.Accounted from hacc)
  rw [foldl_fillRect]
  refine ⟨by rw [h.width, hsize.1], by rw [h.height, hsize.2], fun x' y' hon => ?_⟩
  have hon' : room.board.On x' y' := by rwa [Board.On, hsize.1, hsize.2] at hon
  have hx : x'.toNat < v.width := h.width ▸ UInt16.lt_iff_toNat_lt.mp hon'.1
  have hy : y'.toNat < v.height := h.height ▸ UInt16.lt_iff_toNat_lt.mp hon'.2
  have hcolour : fillStyle team = colourOf team := by rcases hteam with rfl | rfl <;> rfl
  have hcells : brushRects x.toNat y.toNat room.brushSize.toNat = Room.brushCells room.brushSize x y :=
    rfl
  rw [hget x' y' hon', hcells]
  simp only [hx, hy, true_and, place]
  split_ifs
  · exact hcolour
  · exact h.pixels x' y' hon'

/-- A paint that changes the board comes to the page as a `PAINT_APPLIED`. -/
theorem Shows.paintApplied (h : Shows room v) (hseated : Seated room) (hacc : room.board.Accounted)
    (hsafe : room.generation.toNat < 2 ^ 53) {playerIdx : UInt8} {gen : UInt64} {x y : UInt16}
    {nowMs : UInt64} {i : Fin maxPlayers} (hpaints : room.Paints playerIdx gen x y nowMs i)
    (hroom : room' = (room.paint playerIdx gen x y nowMs).2) :
    Shows room' (v.onmessage (.paintApplied room'.generation room'.board.sequence x y
      room'.brushSize (room'.playerTeams i) room'.board.redScore room'.board.blueScore)) := by
  have hteam := hseated.team i hpaints.seated
  have hacc' : room'.board.Accounted := by
    rw [hroom]
    exact (room.step_paint playerIdx gen x y nowMs).accounted hacc
  rw [hpaints.paint_eq] at hroom
  subst hroom
  rw [onmessage, jsNumber_of_lt hsafe, onPaintApplied, if_neg (not_not.mpr h.generation.symm)]
  have hmirrors := h.board.stroke hacc hteam x y
  have hrunning := hpaints.running
  refine ⟨?_, ?_, rfl, rfl, ?_, ?_, ?_⟩
  · simp only [foldl_fillRect]
    exact h.generation
  · exact ⟨hmirrors.width, hmirrors.height, hmirrors.pixels⟩
  · simp only [hmirrors.width, hmirrors.height]
    exact emptyCount_eq hacc'
  · simp only [foldl_fillRect]
    exact h.running
  · simp only [foldl_fillRect]
    exact h.overlay

end Client

end PixelWar
