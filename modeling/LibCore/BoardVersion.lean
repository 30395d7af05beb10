import LibCore.GameRoomPaint

/-!
# The Version of the Board

`sequence` counts the pixels that change and the clears, in 64 bits, and is never to move backwards. How much
a call adds to it can be told before the call: the pixels of the brush that have another colour, or one for a
clear (`Op.due`). As long as the sum fits, the version is exact; the next step sets it back.

## Main results

* `Room.Paints.changes_le`: a stroke changes no more pixels than are due.
* `version_exact`: the board and its version over every run in which the version has room for every call.
-/

namespace PixelWar

/-! ### What is due -/

/-- A place lies on the board, and the pixel has another colour. -/
def Board.Differs (b : Board) (team : Team) (cell : ℤ × ℤ) : Prop :=
  (0 ≤ cell.1 ∧ cell.1 < b.width.toNat ∧ 0 ≤ cell.2 ∧ cell.2 < b.height.toNat) ∧
    b.get (UInt16.ofNat cell.1.toNat) (UInt16.ofNat cell.2.toNat) ≠ team

instance (b : Board) (team : Team) : DecidablePred (b.Differs team) :=
  fun _ => inferInstanceAs (Decidable (_ ∧ _))

/-- The slot of the player whose call is let through to the board. -/
def Room.painter? (room : Room) (playerIdx : UInt8) (gen : UInt64) (x y : UInt16) (nowMs : UInt64) :
    Option (Fin maxPlayers) :=
  (slotOf playerIdx).filter fun i => gen = room.generation ∧ room.playerSessions i ≠ 0 ∧
    (x < room.board.width ∧ y < room.board.height) ∧ room.state = .running ∧ nowMs < room.endsAtMs ∧
    room.cooldownUntil i ≤ nowMs

/-- What a call has to add to the version of the board: one for each pixel of the brush with another colour,
and one for a clear. -/
def Op.due (room : Room) : Op → ℕ
  | .paint playerIdx gen x y nowMs =>
      (room.painter? playerIdx gen x y nowMs).elim 0 fun i =>
        (Room.brushCells room.brushSize x y).countP (room.board.Differs (room.playerTeams i))
  | .reset env requester w h brush durationMs =>
      if (Op.reset env requester w h brush durationMs).resets room ∧ room.board.width = w ∧ room.board.height = h
      then 1 else 0
  | .removePlayer env playerIdx => if (Op.removePlayer env playerIdx).resets room then 1 else 0
  | _ => 0

/-- The version has room for a call. -/
def Op.HasRoom (room : Room) (op : Op) : Prop := room.board.sequence.toNat + op.due room < 2 ^ 64

instance (room : Room) (op : Op) : Decidable (op.HasRoom room) := inferInstanceAs (Decidable (_ < _))

/-! ### Strokes -/

theorem Room.painter?_eq_some {room : Room} {playerIdx : UInt8} {gen : UInt64} {x y : UInt16} {nowMs : UInt64}
    {i : Fin maxPlayers} :
    room.painter? playerIdx gen x y nowMs = some i ↔ room.Paints playerIdx gen x y nowMs i := by
  rw [painter?, Option.filter_eq_some_iff, decide_eq_true_iff]
  constructor
  · rintro ⟨hslot, hgen, hseated, hinside, hrunning, htime, hcool⟩
    exact ⟨hslot, hgen, hseated, hinside, hrunning, htime, hcool⟩
  · rintro ⟨hslot, hgen, hseated, hinside, hrunning, htime, hcool⟩
    exact ⟨hslot, hgen, hseated, hinside, hrunning, htime, hcool⟩

/-- No place is visited twice. -/
theorem nodup_brushCells (brushSize x y : UInt16) : (Room.brushCells brushSize x y).Nodup := by
  have hcast : ∀ n : ℕ, (List.range n >>= fun a => pure (a : ℤ)) = (List.range n).map Nat.cast := by
    intro n
    rw [bind_pure_comp]
    rfl
  have hrange : ∀ n : ℕ, ((List.range n).map (Nat.cast : ℕ → ℤ)).Nodup := fun n =>
    List.nodup_range.map Nat.cast_injective
  simp only [Room.brushCells, hcast]
  rw [List.nodup_flatMap]
  refine ⟨fun dy _ => (hrange _).map fun a b h => ?_, (hrange _).imp fun {a b} hab => ?_⟩
  · simpa using congrArg Prod.fst h
  · rw [Function.onFun, List.disjoint_left]
    rintro cell ha hb
    obtain ⟨c, -, rfl⟩ := List.mem_map.mp ha
    obtain ⟨d, -, heq⟩ := List.mem_map.mp hb
    have hsnd := congrArg Prod.snd heq
    exact hab (by simpa using hsnd.symm)

/-- A place on the board is that of a pixel. -/
theorem Board.differs_place {b : Board} {x y : UInt16} (hon : b.On x y) (team : Team) :
    b.Differs team (place x y) ↔ b.get x y ≠ team := by
  have hx := UInt16.lt_iff_toNat_lt.mp hon.1
  have hy := UInt16.lt_iff_toNat_lt.mp hon.2
  rw [Differs, Int.toNat_natCast, Int.toNat_natCast, UInt16.ofNat_toNat, UInt16.ofNat_toNat]
  refine and_iff_right ⟨Int.natCast_nonneg _, Int.ofNat_lt.mpr hx, Int.natCast_nonneg _, Int.ofNat_lt.mpr hy⟩

/-- Painting one pixel leaves the other places as they are. -/
theorem Board.differs_paint {b : Board} (hb : b.Accounted) {x y : UInt16} (hon : b.On x y) {team : Team}
    (hteam : team = .red ∨ team = .blue) {cell : ℤ × ℤ} (hne : place x y ≠ cell) :
    (b.paint x y team).2.Differs team cell ↔ b.Differs team cell := by
  have hsize := b.paint_size x y team
  rw [Differs, Differs, hsize.1, hsize.2]
  refine and_congr_right fun hin => ?_
  have hw := b.width.toNat_lt
  have hh := b.height.toNat_lt
  have hx : (UInt16.ofNat cell.1.toNat).toNat = cell.1.toNat :=
    UInt16.toNat_ofNat_of_lt' (by simp only [UInt16.size]; omega)
  have hy : (UInt16.ofNat cell.2.toNat).toNat = cell.2.toNat :=
    UInt16.toNat_ofNat_of_lt' (by simp only [UInt16.size]; omega)
  have hcell : b.On (UInt16.ofNat cell.1.toNat) (UInt16.ofNat cell.2.toNat) := by
    rw [On, UInt16.lt_iff_toNat_lt, UInt16.lt_iff_toNat_lt, hx, hy]
    omega
  rw [paint_get hb hon hteam hcell, if_neg]
  rintro ⟨rfl, rfl⟩
  refine hne (Prod.ext ?_ ?_)
  · rw [place, hx, Int.toNat_of_nonneg hin.1]
  · rw [place, hy, Int.toNat_of_nonneg hin.2.2.1]

/-- No pixel is at a place off the board. -/
theorem Board.not_differs_of_off {b : Board} {cell : ℤ × ℤ} (hoff : ∀ x y, b.On x y → place x y ≠ cell)
    (team : Team) : ¬b.Differs team cell := by
  rintro ⟨hin, -⟩
  have hw := b.width.toNat_lt
  have hh := b.height.toNat_lt
  have hx : (UInt16.ofNat cell.1.toNat).toNat = cell.1.toNat :=
    UInt16.toNat_ofNat_of_lt' (by simp only [UInt16.size]; omega)
  have hy : (UInt16.ofNat cell.2.toNat).toNat = cell.2.toNat :=
    UInt16.toNat_ofNat_of_lt' (by simp only [UInt16.size]; omega)
  refine hoff (UInt16.ofNat cell.1.toNat) (UInt16.ofNat cell.2.toNat) ?_ ?_
  · rw [On, UInt16.lt_iff_toNat_lt, UInt16.lt_iff_toNat_lt, hx, hy]
    omega
  · rw [place, hx, hy, Int.toNat_of_nonneg hin.1, Int.toNat_of_nonneg hin.2.2.1]

/-- The loops count the pixels with another colour. -/
theorem Room.foldl_paintCell_sequence {team : Team} (hteam : team = .red ∨ team = .blue)
    {cells : List (ℤ × ℤ)} (hnodup : cells.Nodup) {acc : Bool × Board} (hacc : acc.2.Accounted) :
    (cells.foldl (paintCell team) acc).2.sequence =
      acc.2.sequence + UInt64.ofNat (cells.countP (acc.2.Differs team)) := by
  induction cells generalizing acc with
  | nil => simp
  | cons cell cells ih =>
      obtain ⟨hcell, hrest⟩ := List.nodup_cons.mp hnodup
      rw [List.foldl_cons, List.countP_cons]
      obtain ⟨hoff, heq⟩ | ⟨cx, cy, hon, rfl, heq⟩ := paintCell_cases team acc cell
      · have hsame := Board.not_differs_of_off hoff team
        rw [heq, ih hrest hacc, if_neg (by simpa using hsame), Nat.add_zero]
      · have hcount : cells.countP ((acc.2.paint cx cy team).2.Differs team) =
            cells.countP (acc.2.Differs team) := by
          refine List.countP_congr fun c hc => ?_
          have hne : place cx cy ≠ c := fun h => hcell (h ▸ hc)
          simpa using Board.differs_paint hacc hon hteam hne
        rw [heq, ih hrest (hacc.paint cx cy team)]
        simp only [hcount, decide_eq_true_eq, Board.differs_place hon, ← Board.paint_changed_iff hon hteam]
        obtain ⟨hres, hboard⟩ | ⟨hres, -, hseq⟩ := Board.paint_sequence hacc cx cy team
        · rw [if_neg hres, hboard, Nat.add_zero]
        · rw [if_pos hres, hseq, Nat.add_comm _ 1, UInt64.ofNat_add, ← UInt64.add_assoc]
          rfl

theorem Board.changes_lt {b : Board} (hb : b.Accounted) (pixels : List Team) :
    changes b.pixels pixels < 2 ^ 64 := by
  calc changes b.pixels pixels ≤ (b.pixels.zip pixels).length := List.countP_le_length
    _ ≤ b.pixels.length := by rw [List.length_zip]; exact Nat.min_le_left ..
    _ < 2 ^ 64 := by rw [hb.length]; exact (area_lt b.width b.height).trans (by norm_num)

/-- **A stroke changes no more pixels than are due.** -/
theorem Room.Paints.changes_le {room : Room} {playerIdx : UInt8} {gen : UInt64} {x y : UInt16} {nowMs : UInt64}
    {i : Fin maxPlayers} (h : room.Paints playerIdx gen x y nowMs i) (hseated : Seated room)
    (hacc : room.board.Accounted) :
    Board.changes room.board.pixels (room.paint playerIdx gen x y nowMs).2.board.pixels ≤
      (Op.paint playerIdx gen x y nowMs).due room := by
  have hteam := hseated.team i h.seated
  have hstroke := (@foldl_paintCell (room.playerTeams i) room.board (brushCells room.brushSize x y)
    (false, room.board) hacc (.refl _ room.board)).2.sequence
  have hseq := @foldl_paintCell_sequence _ hteam _ (nodup_brushCells room.brushSize x y) (false, room.board) hacc
  rw [Op.due, painter?_eq_some.mpr h, Option.elim_some, h.paint_eq]
  have hmod := congrArg UInt64.toNat ((UInt64.add_right_inj _).mp (hstroke.symm.trans hseq))
  rw [UInt64.toNat_ofNat', UInt64.toNat_ofNat', Nat.mod_eq_of_lt (Board.changes_lt hacc _)] at hmod
  exact hmod.trans_le (Nat.mod_le ..)

/-! ### Calls -/

/-- A reset to the size of the board clears it, and one to another size makes a new one. -/
theorem Room.forceReset_board {room room' : Room} {env : Env} {w h brush : UInt16} {durationMs : UInt64}
    (hr : room.forceReset env w h brush durationMs = some room') :
    if room.board.width = w ∧ room.board.height = h then room'.board = room.board.clear
    else Board.new w h = some room'.board := by
  rw [forceReset] at hr
  split_ifs at hr
  cases hb : resetBoard room.board env w h with
  | none => simp [hb] at hr
  | some board =>
      have hboard : room'.board = board := by
        simp only [hb, detachTimer] at hr
        split_ifs at hr <;> rw [← Option.some.inj hr]
      rw [hboard]
      rw [resetBoard] at hb
      by_cases hsize : room.board.width = w ∧ room.board.height = h
      · rw [if_neg (by simp [hsize])] at hb
        rw [if_pos hsize]
        exact (Option.some.inj hb).symm
      · rw [if_pos (not_and_or.mp hsize)] at hb
        rw [if_neg hsize]
        split_ifs at hb
        exact hb

/-- The last player who leaves a game leaves a clear board; nobody else touches it. -/
theorem Room.removePlayer_board_eq (room : Room) (env : Env) (playerIdx : UInt8) :
    (room.removePlayer env playerIdx).2.board =
      if (Op.removePlayer env playerIdx).resets room then room.board.clear else room.board := by
  rw [removePlayer, Op.resets]
  cases slotOf playerIdx with
  | none => rfl
  | some i =>
      simp only
      by_cases hsession : room.playerSessions i = 0
      · rw [if_pos hsession, if_neg (by simp [hsession])]
      rw [if_neg hsession]
      by_cases hempty : (slots.all fun j => decide ((room.vacate i).playerSessions j = 0)) = true
      · rw [if_pos hempty]
        by_cases hstate : (room.vacate i).state ≠ .waiting
        · rw [if_pos hstate]
          obtain hreset | ⟨room', hreset⟩ := Option.eq_none_or_eq_some ((room.vacate i).autoReset env)
          · rw [if_neg (by simp [hreset])]
            rw [autoReset] at hreset
            simp only [hreset]
            rfl
          · have hboard := forceReset_board hreset
            rw [if_pos ⟨rfl, rfl⟩] at hboard
            rw [if_pos (by simp [hsession, hempty, hstate, hreset])]
            rw [autoReset] at hreset
            simp only [hreset]
            exact hboard
        · rw [if_neg hstate, if_neg (by simp [not_not.mp hstate])]
          rfl
      · rw [if_neg hempty, if_neg (by simp [hempty])]
        rfl

/-- A call that does not reset the room changes no more pixels than are due. -/
theorem changes_le_due {room : Room} (hseated : Seated room) (hacc : room.board.Accounted) {op : Op}
    (hresets : op.resets room = false) :
    Board.changes room.board.pixels (op.exec room).board.pixels ≤ op.due room := by
  have hkept : (op.exec room).board = room.board →
      Board.changes room.board.pixels (op.exec room).board.pixels ≤ op.due room := fun heq => by
    rw [heq, Board.changes_self]
    exact Nat.zero_le _
  cases op with
  | paint playerIdx gen x y nowMs =>
      by_cases h : ∃ i, room.Paints playerIdx gen x y nowMs i
      · exact h.choose_spec.changes_le hseated hacc
      · exact hkept (Room.paint_board (not_exists.mp h))
  | assignPlayer userId reqTeam =>
      refine hkept ?_
      obtain ⟨-, heq⟩ | ⟨-, -, -, -, ⟨i, cooldown, -, heq⟩ | ⟨-, heq⟩⟩ := room.assignPlayer_cases userId reqTeam
      all_goals rw [Op.exec, heq]
  | removePlayer env playerIdx =>
      refine hkept ((room.removePlayer_board_eq env playerIdx).trans (if_neg ?_))
      rw [hresets]
      exact Bool.false_ne_true
  | reset env requester w h brush durationMs =>
      rw [Op.resets, Option.isSome_eq_false_iff, Option.isNone_iff_eq_none] at hresets
      refine hkept ?_
      rw [Op.exec, hresets, Option.getD_none]
  | start env nowMs =>
      refine hkept ?_
      rw [Op.exec, Room.start]
      split_ifs <;> rfl
  | checkGameOver nowMs =>
      refine hkept ?_
      obtain ⟨heq, -⟩ | ⟨-, -, heq⟩ := room.checkGameOver_cases nowMs
      all_goals rw [Op.exec, heq]
  | timerExpired =>
      refine hkept ?_
      rw [Op.exec, Room.triggerTimeOver]
      split_ifs <;> rfl

/-- A call that resets the room clears the board, which is due, or makes one of another size. -/
theorem exec_resets {room : Room} {op : Op} (hresets : op.resets room = true) :
    ((op.exec room).board = room.board.clear ∧ op.due room = 1) ∨
      ∃ w h, (room.board.width ≠ w ∨ room.board.height ≠ h) ∧ Board.new w h = some (op.exec room).board := by
  cases op with
  | removePlayer env playerIdx =>
      refine .inl ⟨(room.removePlayer_board_eq env playerIdx).trans (if_pos hresets), ?_⟩
      rw [Op.due, if_pos hresets]
  | reset env requester w h brush durationMs =>
      obtain ⟨room', hroom'⟩ := Option.isSome_iff_exists.mp hresets
      have hforce := hroom'
      rw [Room.reset] at hforce
      split_ifs at hforce
      have hboard := Room.forceReset_board hforce
      rw [Op.exec, hroom', Option.getD_some]
      split_ifs at hboard with hsize
      · exact .inl ⟨hboard, if_pos ⟨hresets, hsize⟩⟩
      · exact .inr ⟨w, h, not_and_or.mp hsize, hboard⟩
  | _ => exact absurd hresets Bool.false_ne_true

/-! ### Runs -/

/-- **The version is exact while it has room.** In every run in which no call finds a version that it would
set back: the scores are right in every state on the way, the version of a board moves on by one for each pixel
a call changes and for a clear, and a call that does neither leaves it alone. -/
theorem version_exact (roomId : UInt64) (w h : UInt16) (room : Room)
    (hnew : newGameRoom roomId w h = some room) (ops : List Op)
    (hroom : ∀ n, (hn : n < ops.length) → ops[n].HasRoom (run room (ops.take n))) :
    (∀ n, let r := run room (ops.take n)
      r.board.redScore.toNat = r.board.pixels.count .red ∧
      r.board.blueScore.toNat = r.board.pixels.count .blue ∧
      r.board.emptyCount.toNat = r.board.pixels.count .empty ∧
      r.board.redScore.toNat + r.board.blueScore.toNat + r.board.emptyCount.toNat =
        r.board.width.toNat * r.board.height.toNat) ∧
    ∀ n, (hn : n < ops.length) → let r := run room (ops.take n); let r' := ops[n].exec r
      (r'.generation = r.generation ∧ r'.board.width = r.board.width ∧ r'.board.height = r.board.height ∧
        r'.board.sequence.toNat =
          r.board.sequence.toNat + Board.changes r.board.pixels r'.board.pixels) ∨
      (r'.generation = r.generation + 1 ∧
        ((r'.board = r.board.clear ∧ r'.board.sequence.toNat = r.board.sequence.toNat + 1) ∨
          ∃ w h, (r.board.width ≠ w ∨ r.board.height ≠ h) ∧ Board.new w h = some r'.board)) := by
  have hacc : ∀ n, (run room (ops.take n)).board.Accounted := fun n =>
    run_invariant (P := fun room => room.board.Accounted) Step.accounted (accounted_newGameRoom hnew) _
  refine ⟨fun n => ⟨(hacc n).red, (hacc n).blue, (hacc n).empty, (hacc n).sum⟩, fun n hn => ?_⟩
  intro r r'
  have hseated : Seated r := run_invariant Seated.step (seated_newGameRoom hnew) (ops.take n)
  have hfits : r.board.sequence.toNat + ops[n].due r < 2 ^ 64 := hroom n hn
  have hgen : r'.generation = if ops[n].resets r then r.generation + 1 else r.generation :=
    (exec_step r ops[n]).generation
  cases hresets : ops[n].resets r with
  | true =>
      rw [hresets, if_pos rfl] at hgen
      refine .inr ⟨hgen, (exec_resets hresets).imp_left fun ⟨hclear, hdue⟩ => ⟨hclear, ?_⟩⟩
      rw [hdue] at hfits
      rw [hclear, Board.clear, UInt64.toNat_add, UInt64.toNat_one, Nat.mod_eq_of_lt hfits]
  | false =>
      have hle := changes_le_due hseated (hacc n) hresets
      obtain ⟨hsame, hwidth, hheight, hseq⟩ | ⟨hrenewed, -⟩ := (exec_step r ops[n]).sequence (hacc n)
      · refine .inl ⟨hsame, hwidth, hheight, ?_⟩
        rw [hseq, UInt64.toNat_add, UInt64.toNat_ofNat', Nat.mod_eq_of_lt (Board.changes_lt (hacc n) _)]
        exact Nat.mod_eq_of_lt (hfits.trans_le' (Nat.add_le_add_left hle _))
      · rw [hresets, if_neg Bool.false_ne_true] at hgen
        have hone : (1 : UInt64) = 0 := UInt64.left_eq_add.mp (hgen.symm.trans hrenewed)
        exact absurd hone (by decide)

/-- A stroke of red on a new board: its 16 pixels are due. -/
theorem version_exact_sample :
    ∃ room, newGameRoom 1 8 8 = some room ∧
      (run room sampleGame).board.sequence.toNat = 16 ∧
      (run room sampleGame).board.redScore.toNat = (run room sampleGame).board.pixels.count .red := by
  refine ⟨_, rfl, by decide +kernel, ?_⟩
  have hscores := (version_exact 1 8 8 _ rfl sampleGame (by decide +kernel)).1 sampleGame.length
  rw [List.take_length] at hscores
  exact hscores.1

end PixelWar
