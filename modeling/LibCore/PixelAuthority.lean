import LibCore.PixelReplica

/-!
# The Pixel Game Server: Who Can Do What

Every operation on the room is done in the name of the connection whose message it was, or of the
player who has left. The handlers look at nothing but the session for that, so everything hangs on
the sessions and the slots belonging together (`Rostered`). No send fails at the socket, which would
let a player leave in the middle of a handler.

## Main definitions

* `Server.Performs`: the operation behind an event, and in whose name it is done.

## Main results

* `Server.exec_room`: an event leaves the room alone or performs one operation.
* `room_authority`: who changes a pixel, and who starts a new generation.
-/

open CString Json

namespace PixelWar

/-- The operation an event performs. The connection is known to the server, and where the game is
touched it has joined. -/
inductive Server.Performs (s : Server) : Event → Op → Prop
  | join {ans addr msg session} (reqTeam : Team) (hkey : (addr, some session) ∈ s.keys) :
      Performs s (.message ans addr msg) (.assignPlayer addr reqTeam)
  | reset {ans addr msg session} (w h brush : UInt16) (durationMs : UInt64)
      (hkey : (addr, some session) ∈ s.keys) :
      Performs s (.message ans addr msg) (.reset ans.toEnv addr w h brush durationMs)
  | start {ans addr msg session} (hkey : (addr, some session) ∈ s.keys)
      (hjoined : session.isJoined = true) :
      Performs s (.message ans addr msg) (.start ans.toEnv ans.nowMs)
  | paint {ans addr msg session} (reqGen : UInt64) (x y : UInt16)
      (hkey : (addr, some session) ∈ s.keys) (hjoined : session.isJoined = true) :
      Performs s (.message ans addr msg) (.paint session.playerIdx reqGen x y ans.nowMs)
  | leave {ans addr session} (hkey : (addr, some session) ∈ s.keys)
      (hjoined : session.isJoined = true) :
      Performs s (.wsClose ans addr) (.removePlayer ans.toEnv session.playerIdx)
  | timer {ans} : Performs s (.timerExpired ans) .timerExpired

namespace Server

variable {s : Server}

/-- The answer to a paint changes no room. -/
@[simp] theorem room_answerPaint (ans : Outside) (s : Server) (addr : UInt64) (session : Session)
    (reqId : ℤ) (x y : UInt16) (res : PaintResult) :
    (s.answerPaint ans addr session reqId x y res).room = s.room := by
  cases res <;> rfl

variable {D : Type} (num : Numbers D) (ans : Outside) {addr : UInt64} {session : Session}
  (msg : Bytes)

/-- A message that is read leaves the room alone or performs an operation. -/
theorem onWsMessage_room (hkey : (addr, some session) ∈ s.keys) (huser : session.userId = addr) :
    (s.onWsMessage num ans addr session msg).room = s.room ∨
      ∃ op, s.Performs (.message ans addr msg) op ∧
        (s.onWsMessage num ans addr session msg).room = op.exec s.room := by
  rw [onWsMessage]
  split_ifs
  · exact .inl rfl
  · exact .inl rfl
  cases parseJSON num.toDouble msg with
  | error e => exact .inl rfl
  | ok root =>
      simp only
      cases nodeGetStringLen root (ascii ['t', 'y', 'p', 'e']) with
      | none => exact .inl rfl
      | some type =>
          simp only
          split_ifs
          · rw [joinGame]
            split
            next => exact .inl rfl
            next reqTeam _ =>
              refine .inr ⟨_, .join (teamOfInt reqTeam) hkey, ?_⟩
              rw [Op.exec, ← huser]
              rcases hassign : s.room.assignPlayer session.userId (teamOfInt reqTeam) with
                ⟨_ | ⟨i, canReset⟩, room⟩ <;> simp
          · rw [resetGame]
            split
            next w h brush duration _ _ _ _ =>
              refine .inr ⟨_, .reset (UInt16.ofNat w.toNat) (UInt16.ofNat h.toNat)
                (UInt16.ofNat brush.toNat) (UInt64.ofNat duration.toNat * 1000) hkey, ?_⟩
              rw [Op.exec, ← huser]
              split
              next room hreset => simp [hreset]
              next hreset => simp [hreset]
            next => exact .inl rfl
          · rw [startGame]
            split_ifs with hjoined
            · exact .inl rfl
            · refine .inr ⟨_, .start hkey (by simpa using hjoined), ?_⟩
              rw [Op.exec]
              split
              next room hstart => simp [hstart]
              next hstart => simp [hstart]
          · rw [paintGame]
            split_ifs with hjoined
            · exact .inl rfl
            · split
              next reqId reqGen _ _ =>
                split_ifs
                · exact .inl rfl
                · split
                  next xVal yVal _ _ =>
                    refine .inr ⟨_, .paint reqGen (UInt16.ofNat xVal.toNat)
                      (UInt16.ofNat yVal.toNat) hkey (by simpa using hjoined), ?_⟩
                    simp [Op.exec]
                  next => exact .inl rfl
              next => exact .inl rfl
          · exact .inl rfl

/-- **An event leaves the room alone or performs an operation** in the name of its connection. -/
theorem exec_room (hroster : Rostered s.keys s.room.playerSessions) (event : Event) :
    (s.exec num event).room = s.room ∨
      ∃ op, s.Performs event op ∧ (s.exec num event).room = op.exec s.room := by
  cases event with
  | wsOpen ans addr place sessionAllocated =>
      rw [exec]
      split_ifs <;> exact .inl rfl
  | message ans addr msg =>
      rw [exec]
      split
      next c session log hc =>
        have haddr : c = addr := by simpa using List.find?_some hc
        have hkey := List.mem_map_of_mem (f := Conn.key) (List.mem_of_find?_eq_some hc)
        rw [← haddr]
        exact onWsMessage_room num ans msg hkey (hroster.userId _ hkey session rfl)
      next => exact .inl rfl
  | closing addr => exact .inl rfl
  | wsClose ans addr =>
      rw [exec]
      split
      next c hc =>
        have haddr : c.addr = addr := by simpa using List.find?_some hc
        have hkey := List.mem_map_of_mem (f := Conn.key) (List.mem_of_find?_eq_some hc)
        rw [Conn.key, haddr] at hkey
        rw [onWsClose]
        cases hsession : c.session with
        | none => exact .inl rfl
        | some session =>
            rw [hsession] at hkey
            cases hjoined : session.isJoined with
            | false => exact .inl (by simp [hjoined, remove])
            | true => exact .inr ⟨_, .leave hkey hjoined, by simp [hjoined, remove, Op.exec]⟩
      next => exact .inl rfl
  | timerExpired ans => exact .inr ⟨_, .timer, by simp [exec, Op.exec]⟩

end Server

/-! ### Pixels and generations -/

/-- The last player who leaves a game starts a new generation; no other player touches the board. -/
theorem Room.removePlayer_board (room : Room) (env : Env) (playerIdx : UInt8) :
    (room.removePlayer env playerIdx).2.generation = room.generation + 1 ∨
      (room.removePlayer env playerIdx).2.board = room.board := by
  rw [removePlayer]
  cases slotOf playerIdx with
  | none => exact .inr rfl
  | some i =>
      simp only
      split_ifs
      · exact .inr rfl
      · split
        · exact .inr rfl
        · rename_i room' hreset
          obtain ⟨board, -, rfl⟩ := forceReset_eq_some hreset
          exact .inl rfl
      · exact .inr rfl
      · exact .inr rfl

/-- Nobody is left in a room that starts again because a player leaves. -/
theorem Room.empty_of_resets (room : Room) {env : Env} {playerIdx : UInt8}
    (h : (Op.removePlayer env playerIdx).resets room = true) (j : Fin maxPlayers) :
    (room.removePlayer env playerIdx).2.playerSessions j = 0 := by
  rw [Op.resets] at h
  obtain ⟨hempty, -⟩ | ⟨i, hslot, -, ⟨hleft, -⟩ | ⟨hall, heq⟩⟩ := room.removePlayer_cases env playerIdx
  · cases hslot : slotOf playerIdx with
    | none => simp [hslot] at h
    | some i => simp [hslot, hempty i hslot] at h
  · obtain ⟨k, hk⟩ := hleft
    simp only [hslot, Bool.and_eq_true, List.all_eq_true, decide_eq_true_eq] at h
    exact absurd (h.1.1.2 k (List.mem_finRange k)) hk
  · rw [heq]
    exact hall j

/-- A generation is not the next one. -/
theorem generation_succ_ne (g : UInt64) : g + 1 ≠ g := by
  intro h
  have hval := congrArg UInt64.toNat h
  simp only [UInt64.toNat_add, UInt64.reduceToNat] at hval
  omega

/-- An operation that is not a paint of the player in slot `i` changes no pixel of a game. -/
theorem Op.board_of_not_paints {room : Room} {op : Op}
    (hop : ∀ playerIdx gen x y nowMs i, op = .paint playerIdx gen x y nowMs →
      ¬ room.Paints playerIdx gen x y nowMs i)
    (hgen : (op.exec room).generation = room.generation) : (op.exec room).board = room.board := by
  have hstep := exec_step room op
  have hresets : op.resets room = false := by
    by_contra hresets
    rw [Bool.not_eq_false] at hresets
    have hmoved := hstep.generation
    rw [if_pos hresets, hgen] at hmoved
    exact generation_succ_ne _ hmoved.symm
  cases op with
  | paint playerIdx gen x y nowMs => exact Room.paint_board fun i => hop _ _ _ _ _ i rfl
  | assignPlayer userId reqTeam => exact (room.assignPlayer_answer userId reqTeam).1.1
  | checkGameOver nowMs =>
      obtain ⟨heq, -⟩ | ⟨-, -, heq⟩ := room.checkGameOver_cases nowMs <;> rw [exec, heq]
  | timerExpired =>
      rw [exec, Room.triggerTimeOver]
      split_ifs <;> rfl
  | start env nowMs =>
      rw [exec]
      cases hstart : room.start env nowMs with
      | none => rfl
      | some room' => exact (Room.start_eq_some hstart).2.2.1
  | reset env requester w h brush durationMs =>
      rw [Op.resets, Option.isSome_eq_false_iff, Option.isNone_iff_eq_none] at hresets
      rw [exec, hresets]
      rfl
  | removePlayer env playerIdx =>
      exact (room.removePlayer_board env playerIdx).resolve_left fun hmoved =>
        generation_succ_ne _ (hmoved.symm.trans hgen)

/-- A paint that reaches the board paints in the colour of its player. -/
theorem Room.Paints.get_eq {room : Room} (hseated : Seated room) (hacc : room.board.Accounted)
    {playerIdx : UInt8} {gen : UInt64} {x y : UInt16} {nowMs : UInt64} {i : Fin maxPlayers}
    (h : room.Paints playerIdx gen x y nowMs i) {x' y' : UInt16} (hon : room.board.On x' y') :
    (room.paint playerIdx gen x y nowMs).2.board.get x' y' =
      if InBrush room.brushSize x y x' y' then room.playerTeams i else room.board.get x' y' := by
  have hpaint := h.paint_eq
  simp only at hpaint
  obtain ⟨-, hget, -⟩ := foldl_paintCell_get (hseated.team i h.seated) (brushCells room.brushSize x y)
    (show (false, room.board).2.Accounted from hacc)
  rw [hpaint]
  simp only [hget x' y' hon, place_mem_brushCells]

/-- **Who changes the room**, in every reachable state. Each player sits in a slot of its own, with
its own address in it, and each slot that is taken belongs to a player who is there. Within a
generation a pixel changes its colour only in a running game, by a message of a player, within the
brush around the pixel the player has named, and to the colour of the player's team. A new
generation is started by a message of the initializer while no game is running, or by the last
player, who leaves. -/
theorem room_authority {D : Type} (num : Numbers D) (roomId : UInt64) (w h : UInt16) (s₀ : Server)
    (hnew : newServer roomId w h = some s₀) (events : List Event) :
    let s := s₀.run num events
    (∀ c ∈ s.conns, ∀ session, c.session = some session → session.isJoined = true →
      ∃ i, slotOf session.playerIdx = some i ∧ s.room.playerSessions i = c.addr ∧
        ∀ d ∈ s.conns, d.addr = c.addr → d = c) ∧
    (∀ i, s.room.playerSessions i ≠ 0 →
      ∃ c ∈ s.conns, c.isJoined = true ∧ s.room.playerSessions i = c.addr) ∧
    ∀ event, let s' := s.exec num event
      (s'.room.generation = s.room.generation → ∀ x' y', s.room.board.On x' y' →
        s'.room.board.get x' y' ≠ s.room.board.get x' y' →
        ∃ ans addr msg, event = .message ans addr msg ∧ ∃ c ∈ s.conns, c.addr = addr ∧
          ∃ session, c.session = some session ∧ session.isJoined = true ∧
            ∃ i x y, s.room.Paints session.playerIdx s.room.generation x y ans.nowMs i ∧
              InBrush s.room.brushSize x y x' y' ∧
              s'.room.board.get x' y' = s.room.playerTeams i) ∧
      (s'.room.generation ≠ s.room.generation →
        (∃ ans addr msg, event = .message ans addr msg ∧ (∃ c ∈ s.conns, c.addr = addr) ∧
          addr = s.room.initializerSession ∧ s.room.state ≠ .running) ∨
        (∃ ans addr, event = .wsClose ans addr) ∧ ∀ c ∈ s'.conns, c.isJoined = false) := by
  intro s
  have hsync := (synced_newServer hnew).run num events
  have hmem : ∀ addr session, (addr, some session) ∈ s.keys →
      ∃ c ∈ s.conns, c.addr = addr ∧ c.session = some session := by
    intro addr session hkey
    obtain ⟨c, hc, heq⟩ := List.mem_map.mp hkey
    rw [Conn.key, Prod.mk.injEq] at heq
    exact ⟨c, hc, heq⟩
  have hroster := hsync.roster
  refine ⟨fun c hc session hsession hjoined => ?_, fun i hi => ?_, fun event => ?_⟩
  · obtain ⟨i, hslot, hseat⟩ :=
      hroster.seated _ (List.mem_map_of_mem hc) session hsession hjoined
    refine ⟨i, hslot, hseat, fun d hd haddr => ?_⟩
    have hnodup : (s.conns.map Conn.addr).Nodup := by
      have := hroster.nodup
      rwa [Server.keys, List.map_map] at this
    exact List.inj_on_of_nodup_map hnodup hd hc haddr
  · obtain ⟨key, hkey, session, hsession, hjoined, -, hseat⟩ := hroster.joined i hi
    obtain ⟨c, hc, haddr, hcs⟩ := hmem key.1 session (by rw [← hsession]; exact hkey)
    exact ⟨c, hc, (Option.any_eq_true ..).mpr ⟨session, hcs, hjoined⟩, hseat.trans haddr.symm⟩
  · intro s'
    obtain hsame | ⟨op, hperforms, hroom⟩ := Server.exec_room num hroster event
    · refine ⟨fun _ x' y' _ hne => absurd ?_ hne, fun hgen => absurd ?_ hgen⟩ <;> rw [hsame]
    refine ⟨fun hgen x' y' hon hne => ?_, fun hgen => ?_⟩
    · have hpaints : ∃ playerIdx gen x y nowMs i, op = .paint playerIdx gen x y nowMs ∧
          s.room.Paints playerIdx gen x y nowMs i := by
        by_contra hnot
        push Not at hnot
        refine hne ?_
        rw [hroom] at hgen ⊢
        rw [Op.board_of_not_paints (fun _ _ _ _ _ i hop => hnot _ _ _ _ _ i hop) hgen]
      obtain ⟨playerIdx, gen, x, y, nowMs, i, rfl, hp⟩ := hpaints
      have hget := hp.get_eq hsync.sound.seated hsync.sound.accounted hon
      rw [hroom, Op.exec] at hne ⊢
      rw [hget] at hne ⊢
      have hbrush : InBrush s.room.brushSize x y x' y' := by
        by_contra hout
        exact hne (if_neg hout)
      cases hperforms with
      | @paint ans addr msg session _ _ _ hkey hjoined =>
          obtain ⟨c, hc, haddr, hcs⟩ := hmem _ _ hkey
          refine ⟨ans, addr, msg, rfl, c, hc, haddr, session, hcs, hjoined, i, x, y, ?_, hbrush,
            if_pos hbrush⟩
          rw [← hp.generation]
          exact hp
    · have hresets : op.resets s.room = true := by
        by_contra hnot
        refine hgen ?_
        rw [hroom, (exec_step s.room op).generation, if_neg hnot]
      cases hperforms with
      | @reset ans addr msg session w h brush durationMs hkey =>
          obtain ⟨c, hc, haddr, -⟩ := hmem _ _ hkey
          refine .inl ⟨ans, addr, msg, rfl, ⟨c, hc, haddr⟩, ?_⟩
          rw [Op.resets, Room.reset] at hresets
          split_ifs at hresets with harg hstate hinit
          · simp at hresets
          · simp at hresets
          · simp at hresets
          · exact ⟨not_not.mp (not_or.mp hinit).2, hstate⟩
      | @leave ans addr session hkey hjoined =>
          refine .inr ⟨⟨ans, addr, rfl⟩, fun c hc => ?_⟩
          by_contra hcj
          -- Somebody who is still there sits in a slot, and all slots are free.
          have hempty := s.room.empty_of_resets hresets
          obtain ⟨session', hs', hj'⟩ := (Option.any_eq_true ..).mp (Bool.of_not_eq_false hcj)
          have hroster' := (hsync.exec num (.wsClose ans addr)).roster
          obtain ⟨i, -, hi⟩ := hroster'.seated _ (List.mem_map_of_mem hc) session' hs' hj'
          refine hroster'.ne_zero _ (List.mem_map_of_mem hc) (hi.symm.trans ?_)
          rw [hroom]
          exact hempty i
      | _ => simp [Op.resets] at hresets

/-- In the short game each of the two slots that are taken is a player's. -/
theorem room_authority_sample :
    ∃ s₀, newServer 1 8 8 = some s₀ ∧ (s₀.run natNumbers shortGame).room.playerSessions 1 ≠ 0 ∧
      ∃ c ∈ (s₀.run natNumbers shortGame).conns, c.isJoined = true ∧
        (s₀.run natNumbers shortGame).room.playerSessions 1 = c.addr := by
  have hrun : (newServer 1 8 8).any (fun s₀ =>
      decide ((s₀.run natNumbers shortGame).room.playerSessions 1 ≠ 0)) = true := by decide +kernel
  obtain ⟨s₀, hnew, hs⟩ := (Option.any_eq_true ..).mp hrun
  have hseat := of_decide_eq_true hs
  exact ⟨s₀, hnew, hseat, (room_authority natNumbers 1 8 8 s₀ hnew shortGame).2.1 1 hseat⟩

end PixelWar
