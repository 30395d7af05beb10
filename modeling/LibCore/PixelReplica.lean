import LibCore.PixelClient

/-!
# The Pixel Game: Pages and Room

A server tells its connections what has happened to the room, and each page works out the board
for itself. The pages of the players keep up with the room, through games, resets, players that
come and go, and games that the clock ends in the middle of a handler.

The proof goes handler by handler. A handler changes the room and then sends frames; in between,
the pages are behind in a known way (`Views`). Who sits where is kept apart from the frames: it
depends on the addresses and the sessions of the connections only (`Server.keys`).

A run has no send that fails at the socket (`LibCore.PixelHandler`); frames may be lost in it.

## Main definitions

* `Conn.page`: the page at the other end of a connection.
* `Rostered`: the joined sessions and the slots of the room belong together.
* `Views`: what the pages of joined and of other connections show.
* `Synced`: the invariant of a run.

## Main results

* `pages_show_room`: every player's page shows the room.
* `paint_attribution`: the board changes by the hands of its players only.
-/

open CString Json

namespace PixelWar

/-! ### Connections and what they show -/

namespace Conn

/-- The address and the session. -/
def key (c : Conn) : UInt64 × Option Session := (c.addr, c.session)

/-- The connection has joined the game. -/
def isJoined (c : Conn) : Bool := c.session.any (·.isJoined)

/-- No frame has been lost. -/
def Intact (c : Conn) : Prop := ∀ entry ∈ c.log, entry.2 = true

/-- The frames on the wire. -/
def frames (c : Conn) : List Frame := (c.log.filter Prod.snd).map Prod.fst

/-- The page at the other end, when it has worked through all frames. -/
def page (c : Conn) : Client := c.frames.foldl Client.onmessage .opened

@[simp] theorem key_wsSend (ans : Outside) (c : Conn) (f : Frame) : (c.wsSend ans f).key = c.key := by
  rw [wsSend]
  split_ifs <;> rfl

@[simp] theorem isClosing_wsSend (ans : Outside) (c : Conn) (f : Frame) :
    (c.wsSend ans f).isClosing = c.isClosing := by
  rw [wsSend]
  split_ifs <;> rfl

@[simp] theorem isJoined_wsSend (ans : Outside) (c : Conn) (f : Frame) :
    (c.wsSend ans f).isJoined = c.isJoined := by
  rw [wsSend]
  split_ifs <;> rfl

/-- A frame that is not lost reaches the page. -/
theorem page_wsSend {ans : Outside} {c : Conn} {f : Frame} (hopen : c.isClosing = false)
    (hintact : (c.wsSend ans f).Intact) :
    c.Intact ∧ (c.wsSend ans f).page = c.page.onmessage f := by
  rw [wsSend, if_neg (by simp [hopen])] at hintact ⊢
  have hqueued : ans.queued c.addr c.log.length = true :=
    hintact (f, ans.queued c.addr c.log.length) (by simp)
  refine ⟨fun entry hentry => hintact entry (by simp [hentry]), ?_⟩
  simp [page, frames, hqueued]

end Conn

namespace Server

/-- The addresses and the sessions of the connections. -/
def keys (s : Server) : List (UInt64 × Option Session) := s.conns.map Conn.key

theorem keys_map (s : Server) {f : Conn → Conn} (hf : ∀ c, (f c).key = c.key) :
    ({ s with conns := s.conns.map f } : Server).keys = s.keys := by
  rw [keys, keys, List.map_map]
  exact List.map_congr_left fun c _ => hf c

variable (ans : Outside) (s : Server)

@[simp] theorem room_send (addr : UInt64) (f : Frame) : (s.send ans addr f).room = s.room := rfl

@[simp] theorem room_sendAck (addr : UInt64) (reqId : ℤ) (status : String) :
    (s.sendAck ans addr reqId status).room = s.room := rfl

@[simp] theorem room_broadcastToRoom (f : Frame) : (s.broadcastToRoom ans f).room = s.room := rfl

@[simp] theorem room_broadcastRoomStatus : (s.broadcastRoomStatus ans).room = s.room := rfl

@[simp] theorem room_modify (addr : UInt64) (f : Conn → Conn) : (s.modify addr f).room = s.room := rfl

@[simp] theorem room_setRoom (room : Room) : (s.setRoom ans room).room = room := by
  rw [setRoom]
  split_ifs <;> rfl

@[simp] theorem keys_send (addr : UInt64) (f : Frame) : (s.send ans addr f).keys = s.keys :=
  s.keys_map fun c => by split_ifs <;> simp

@[simp] theorem keys_sendAck (addr : UInt64) (reqId : ℤ) (status : String) :
    (s.sendAck ans addr reqId status).keys = s.keys := s.keys_send ans addr _

@[simp] theorem keys_broadcastToRoom (f : Frame) : (s.broadcastToRoom ans f).keys = s.keys :=
  s.keys_map fun c => by split_ifs <;> simp

@[simp] theorem keys_broadcastRoomStatus : (s.broadcastRoomStatus ans).keys = s.keys :=
  s.keys_broadcastToRoom ans _

@[simp] theorem keys_setRoom (room : Room) : (s.setRoom ans room).keys = s.keys := by
  rw [setRoom, onGameOver]
  split_ifs
  · rw [keys_broadcastRoomStatus, keys_broadcastToRoom]
    rfl
  · rfl

theorem keys_remove (addr : UInt64) :
    (s.remove addr).keys = s.keys.filter fun key => decide (key.1 ≠ addr) := by
  simp only [remove, keys, List.filter_map]
  rfl

theorem keys_setSession (addr : UInt64) (session : Option Session) :
    (s.modify addr fun c => { c with session := session }).keys =
      s.keys.map fun key => if key.1 = addr then (key.1, session) else key := by
  simp only [keys, modify, List.map_map]
  refine List.map_congr_left fun c _ => ?_
  by_cases haddr : c.addr = addr
  · simp [Conn.key, haddr]
  · simp [Conn.key, haddr]

/-- An operation that does not end the game changes the room alone. -/
theorem setRoom_eq {room : Room} (h : s.room.state = .running → room.state ≠ .finished) :
    s.setRoom ans room = { s with room := room } := by
  rw [setRoom, if_neg fun hover => h hover.1 hover.2]

end Server

/-- What the pages show: `P` where the connection has joined and `Q` where it has not. Nothing is
said of connections that are closing, and of those that have lost a frame. -/
def Views (P Q : Client → Prop) (s : Server) : Prop :=
  ∀ c ∈ s.conns, c.isClosing = false → c.Intact → if c.isJoined then P c.page else Q c.page

namespace Views

variable {P P' Q : Client → Prop} {s : Server}

theorem mono (h : Views P Q s) (himp : ∀ v, P v → P' v) : Views P' Q s := by
  intro c hc hopen hintact
  have hview := h c hc hopen hintact
  split_ifs at hview ⊢
  · exact himp _ hview
  · exact hview

/-- A change of the room is not on the pages yet. -/
theorem room (h : Views P Q s) (room : Room) : Views P Q { s with room := room } := h

/-- A broadcast reaches the pages of the joined connections. -/
theorem broadcastToRoom (h : Views P Q s) (ans : Outside) {f : Frame}
    (hf : ∀ v, P v → P' (v.onmessage f)) : Views P' Q (s.broadcastToRoom ans f) := by
  intro c' hc' hopen hintact
  obtain ⟨c, hc, rfl⟩ := List.mem_map.mp hc'
  by_cases hlisten : c.isListening = true
  · rw [if_pos hlisten] at hopen hintact ⊢
    obtain ⟨hcopen, hjoined⟩ := Bool.and_eq_true_iff.mp hlisten
    rw [Bool.not_eq_true'] at hcopen
    obtain ⟨hcintact, hpage⟩ := Conn.page_wsSend hcopen hintact
    have hview := h c hc hcopen hcintact
    have hj : c.isJoined = true := hjoined
    rw [Conn.isJoined_wsSend, if_pos hj, hpage]
    rw [if_pos hj] at hview
    exact hf _ hview
  · rw [if_neg hlisten] at hopen hintact ⊢
    have hview := h c hc hopen hintact
    have hj : ¬ c.isJoined = true := fun hj => hlisten (by
      rw [Conn.isListening, hopen]
      exact hj)
    rw [if_neg hj] at hview ⊢
    exact hview

/-- A frame that does not matter to the page. -/
theorem send (h : Views P Q s) (ans : Outside) (addr : UInt64) {f : Frame}
    (hf : ∀ v : Client, v.onmessage f = v) : Views P Q (s.send ans addr f) := by
  intro c' hc' hopen hintact
  obtain ⟨c, hc, rfl⟩ := List.mem_map.mp hc'
  by_cases haddr : c.addr = addr
  · rw [if_pos haddr] at hopen hintact ⊢
    rw [Conn.isClosing_wsSend] at hopen
    obtain ⟨hcintact, hpage⟩ := Conn.page_wsSend hopen hintact
    rw [Conn.isJoined_wsSend, hpage, hf]
    exact h c hc hopen hcintact
  · rw [if_neg haddr] at hopen hintact ⊢
    exact h c hc hopen hintact

theorem sendAck (h : Views P Q s) (ans : Outside) (addr : UInt64) (reqId : ℤ) (status : String) :
    Views P Q (s.sendAck ans addr reqId status) := h.send ans addr fun _ => rfl

/-- A connection joins, and its page is still that of a connection that has not. -/
theorem join (h : Views P Q s) (addr : UInt64) {session : Session} (hjoined : session.isJoined = true) :
    Views (fun v => P v ∨ Q v) Q (s.modify addr fun c => { c with session := some session }) := by
  intro c' hc' hopen hintact
  obtain ⟨c, hc, rfl⟩ := List.mem_map.mp hc'
  by_cases haddr : c.addr = addr
  · rw [if_pos haddr] at hopen hintact ⊢
    have hview := h c hc hopen hintact
    rw [if_pos (show Conn.isJoined { c with session := some session } = true from hjoined)]
    split_ifs at hview
    · exact .inl hview
    · exact .inr hview
  · rw [if_neg haddr] at hopen hintact ⊢
    have hview := h c hc hopen hintact
    split_ifs at hview ⊢
    · exact .inl hview
    · exact hview

/-- Nothing is said of a connection that is closing. -/
theorem closing (h : Views P Q s) (addr : UInt64) :
    Views P Q (s.modify addr fun c => { c with isClosing := true }) := by
  intro c' hc' hopen hintact
  obtain ⟨c, hc, rfl⟩ := List.mem_map.mp hc'
  by_cases haddr : c.addr = addr
  · rw [if_pos haddr] at hopen
    exact absurd hopen (by simp)
  · rw [if_neg haddr] at hopen hintact ⊢
    exact h c hc hopen hintact

/-- A new connection. -/
theorem insert (h : Views P Q s) {c : Conn} (place : ℕ) (hnew : c.Intact → Q c.page)
    (hjoined : c.isJoined = false) :
    Views P Q { s with conns := s.conns.take place ++ c :: s.conns.drop place } := by
  intro d hd hopen hintact
  rcases List.mem_append.mp hd with hd | hd
  · exact h d (List.mem_of_mem_take hd) hopen hintact
  · rcases List.mem_cons.mp hd with rfl | hd
    · rw [hjoined]
      exact hnew hintact
    · exact h d (List.mem_of_mem_drop hd) hopen hintact

theorem remove (h : Views P Q s) (addr : UInt64) : Views P Q (s.remove addr) :=
  fun c hc => h c (List.mem_of_mem_filter hc)

/-- Where nobody has joined, the pages of those who have may show anything. -/
theorem of_none_joined (h : Views P Q s) (hnone : ∀ c ∈ s.conns, c.isJoined = false) :
    Views P' Q s := by
  intro c hc hopen hintact
  have hview := h c hc hopen hintact
  rw [hnone c hc] at hview ⊢
  exact hview

end Views

/-! ### Sessions and slots -/

/-- The joined sessions and the slots belong together: each joined session has a slot with its own
address in it, and each slot that is taken is some joined session's. -/
structure Rostered (keys : List (UInt64 × Option Session)) (seats : Fin maxPlayers → UInt64) :
    Prop where
  nodup : (keys.map Prod.fst).Nodup
  ne_zero : ∀ key ∈ keys, key.1 ≠ 0
  userId : ∀ key ∈ keys, ∀ session, key.2 = some session → session.userId = key.1
  seated : ∀ key ∈ keys, ∀ session, key.2 = some session → session.isJoined = true →
    ∃ i, slotOf session.playerIdx = some i ∧ seats i = key.1
  joined : ∀ i, seats i ≠ 0 → ∃ key ∈ keys, ∃ session, key.2 = some session ∧
    session.isJoined = true ∧ slotOf session.playerIdx = some i ∧ seats i = key.1

namespace Rostered

variable {keys : List (UInt64 × Option Session)} {seats : Fin maxPlayers → UInt64}

/-- A connection with a fresh address and no session that has joined. -/
theorem insert (h : Rostered keys seats) {addr : UInt64} {session : Option Session} (place : ℕ)
    (hzero : addr ≠ 0) (hfresh : ∀ key ∈ keys, key.1 ≠ addr)
    (hsession : ∀ s, session = some s → s.userId = addr ∧ s.isJoined = false) :
    Rostered (keys.take place ++ (addr, session) :: keys.drop place) seats := by
  have hperm : (keys.take place ++ (addr, session) :: keys.drop place).Perm ((addr, session) :: keys) := by
    conv_rhs => rw [← List.take_append_drop place keys]
    exact List.perm_middle
  have hmem : ∀ {key}, key ∈ keys.take place ++ (addr, session) :: keys.drop place ↔
      key = (addr, session) ∨ key ∈ keys := fun {key} => by rw [hperm.mem_iff, List.mem_cons]
  refine ⟨?_, fun key hkey => ?_, fun key hkey => ?_, fun key hkey s hs hj => ?_, fun i hi => ?_⟩
  · rw [(hperm.map Prod.fst).nodup_iff, List.map_cons, List.nodup_cons]
    refine ⟨fun hin => ?_, h.nodup⟩
    obtain ⟨key, hkey, heq⟩ := List.mem_map.mp hin
    exact hfresh key hkey heq
  · rcases hmem.mp hkey with rfl | hkey
    · exact hzero
    · exact h.ne_zero key hkey
  · rcases hmem.mp hkey with rfl | hkey
    · exact fun s hs => (hsession s hs).1
    · exact h.userId key hkey
  · rcases hmem.mp hkey with rfl | hkey
    · exact absurd hj (by simp [(hsession s hs).2])
    · exact h.seated key hkey s hs hj
  · obtain ⟨key, hkey, hrest⟩ := h.joined i hi
    exact ⟨key, hmem.mpr (.inr hkey), hrest⟩

/-- A connection leaves, and its slot becomes free. -/
theorem remove (h : Rostered keys seats) (addr : UInt64) :
    Rostered (keys.filter fun key => decide (key.1 ≠ addr))
      (fun i => if seats i = addr then 0 else seats i) := by
  have hmem : ∀ {key}, key ∈ keys.filter (fun key => decide (key.1 ≠ addr)) →
      key ∈ keys ∧ key.1 ≠ addr := by simp
  refine ⟨?_, fun key hkey => ?_, fun key hkey => ?_, fun key hkey s hs hj => ?_, fun i hi => ?_⟩
  · exact h.nodup.sublist (List.filter_sublist.map Prod.fst)
  · exact h.ne_zero key (hmem hkey).1
  · exact h.userId key (hmem hkey).1
  · obtain ⟨i, hi, hseat⟩ := h.seated key (hmem hkey).1 s hs hj
    exact ⟨i, hi, by rw [hseat, if_neg (hmem hkey).2]⟩
  · have hne : seats i ≠ addr := fun heq => hi (if_pos heq)
    simp only [if_neg hne] at hi ⊢
    obtain ⟨key, hkey, s, hs, hj, hslot, hseat⟩ := h.joined i hi
    exact ⟨key, List.mem_filter.mpr ⟨hkey, by simpa using hseat ▸ hne⟩, s, hs, hj, hslot, hseat⟩

/-- A session joins, or joins again. -/
theorem join (h : Rostered keys seats) (hunique : ∀ i j, seats i ≠ 0 → seats i = seats j → i = j)
    {addr : UInt64} {session session' : Session} (hkey : (addr, some session) ∈ keys)
    {i : Fin maxPlayers} (huser : session'.userId = addr)
    (hjoined : session'.isJoined = true) (hslot : slotOf session'.playerIdx = some i)
    (hseat : seats i = addr ∨ seats i = 0 ∧ ∀ j, seats j ≠ addr) :
    Rostered (keys.map fun key => if key.1 = addr then (key.1, some session') else key)
      (Function.update seats i addr) := by
  have hzero : addr ≠ 0 := h.ne_zero _ hkey
  -- The slot is nobody else's.
  have halone : ∀ j, j ≠ i → seats j ≠ addr := by
    intro j hj heq
    rcases hseat with hi | ⟨-, hnone⟩
    · exact hj (hunique j i (heq ▸ hzero) (heq.trans hi.symm))
    · exact hnone j heq
  refine ⟨?_, fun key' hkey' => ?_, fun key' hkey' s hs => ?_, fun key' hkey' s hs hj => ?_,
    fun j hj => ?_⟩
  · have hfst : (keys.map fun key => if key.1 = addr then (key.1, some session') else key).map
        Prod.fst = keys.map Prod.fst := by
      rw [List.map_map]
      refine List.map_congr_left fun key _ => ?_
      simp only [Function.comp_apply]
      split_ifs <;> rfl
    rw [hfst]
    exact h.nodup
  all_goals try obtain ⟨key, hmem, rfl⟩ := List.mem_map.mp hkey'
  · split_ifs <;> exact h.ne_zero key hmem
  · split_ifs at hs ⊢ with haddr
    · obtain rfl := Option.some.inj hs
      exact huser.trans haddr.symm
    · exact h.userId key hmem s hs
  · split_ifs at hs ⊢ with haddr
    · obtain rfl := Option.some.inj hs
      exact ⟨i, hslot, by rw [Function.update_self, haddr]⟩
    · obtain ⟨j, hjslot, hjseat⟩ := h.seated key hmem s hs hj
      have hji : j ≠ i := by
        rintro rfl
        rcases hseat with hi | ⟨hi, -⟩
        · exact haddr (hjseat.symm.trans hi)
        · exact h.ne_zero key hmem (hjseat.symm.trans hi)
      exact ⟨j, hjslot, by rw [Function.update_of_ne hji, hjseat]⟩
  · by_cases hji : j = i
    · subst hji
      refine ⟨(addr, some session'), List.mem_map.mpr ⟨_, hkey, if_pos rfl⟩, session', rfl, hjoined,
        hslot, by rw [Function.update_self]⟩
    · rw [Function.update_of_ne hji] at hj ⊢
      obtain ⟨key, hmem, s, hs, hsj, hsslot, hsseat⟩ := h.joined j hj
      have haddr : key.1 ≠ addr := fun heq => halone j hji (hsseat.trans heq)
      exact ⟨key, List.mem_map.mpr ⟨key, hmem, if_neg haddr⟩, s, hs, hsj, hsslot, hsseat⟩

/-- A connection that has not joined has no slot. -/
theorem not_seated (h : Rostered keys seats) {addr : UInt64} {session : Option Session}
    (hkey : (addr, session) ∈ keys) (hsession : ∀ s, session = some s → s.isJoined = false)
    (i : Fin maxPlayers) : seats i ≠ addr := by
  intro hi
  obtain ⟨key, hmem, s, hs, hj, -, hseat⟩ := h.joined i (hi ▸ h.ne_zero _ hkey)
  have heq : key = (addr, session) :=
    List.inj_on_of_nodup_map h.nodup hmem hkey (hseat.symm.trans hi)
  rw [heq] at hs
  exact absurd hj (by simp [hsession s hs])

end Rostered

/-! ### What the operations do to a room -/

/-- The index of a slot fits into a byte. -/
theorem slotOf_ofNat (i : Fin maxPlayers) : slotOf (UInt8.ofNat i) = some i := by
  have hlt : (i : ℕ) < 64 := i.isLt
  have hi : (UInt8.ofNat i).toNat = i := UInt8.toNat_ofNat_of_lt' (by
    simp only [UInt8.size]
    omega)
  simp [slotOf, hi]

namespace Room

/-- The answer of `GameRoom_assign_player`, and who sits where afterwards. -/
theorem assignPlayer_answer (room : Room) (userId : UInt64) (reqTeam : Team) :
    ((room.assignPlayer userId reqTeam).2.board = room.board ∧
        (room.assignPlayer userId reqTeam).2.generation = room.generation ∧
        (room.assignPlayer userId reqTeam).2.state = room.state) ∧
      ((room.assignPlayer userId reqTeam).1 = none ∧
          (room.assignPlayer userId reqTeam).2.playerSessions = room.playerSessions ∨
        ∃ i canReset, (room.assignPlayer userId reqTeam).1 = some (i, canReset) ∧
          room.state = .waiting ∧
          (room.playerSessions i = userId ∨
            room.playerSessions i = 0 ∧ ∀ j, room.playerSessions j ≠ userId) ∧
          (room.assignPlayer userId reqTeam).2.playerSessions =
            Function.update room.playerSessions i userId) := by
  rw [assignPlayer]
  split_ifs with harg hstate hred hblue hinit
  case pos | pos | pos | pos => exact ⟨⟨rfl, rfl, rfl⟩, .inl ⟨rfl, rfl⟩⟩
  all_goals
    rw [not_not] at hstate
    simp only
    split
    next i hfind =>
      have hi : room.playerSessions i = userId := by simpa using List.find?_some hfind
      refine ⟨⟨rfl, rfl, rfl⟩, .inr ⟨i, _, rfl, hstate, .inl hi, ?_⟩⟩
      rw [← hi, Function.update_eq_self]
    next hfind =>
      have hother : ∀ j, room.playerSessions j ≠ userId := by simpa using hfind
      split
      next i hfree =>
        have hi : room.playerSessions i = 0 := by simpa using List.find?_some hfree
        exact ⟨⟨rfl, rfl, rfl⟩, .inr ⟨i, _, rfl, hstate, .inr ⟨hi, hother⟩, rfl⟩⟩
      next => exact ⟨⟨rfl, rfl, rfl⟩, .inl ⟨rfl, rfl⟩⟩

/-- A game starts on the board of a waiting room. -/
theorem start_eq_some {room room' : Room} {env : Env} {nowMs : UInt64}
    (h : room.start env nowMs = some room') :
    room.state = .waiting ∧ room'.state = .running ∧ room'.board = room.board ∧
      room'.playerSessions = room.playerSessions := by
  rw [start] at h
  split_ifs at h with hcan
  simp only [canStart, Bool.not_eq_true', decide_eq_false_iff_not, not_not] at hcan
  obtain rfl := Option.some.inj h
  exact ⟨hcan.1, rfl, rfl, rfl⟩

/-- No game ends because a player leaves. -/
theorem removePlayer_state (room : Room) (env : Env) (playerIdx : UInt8)
    (h : room.state = .running) : (room.removePlayer env playerIdx).2.state ≠ .finished := by
  have hrun : room.state ≠ .finished := by simp [h]
  rw [removePlayer]
  cases slotOf playerIdx with
  | none => exact hrun
  | some i =>
      simp only
      split_ifs
      · exact hrun
      · split
        · exact hrun
        · rename_i room' hreset
          obtain ⟨board, -, rfl⟩ := forceReset_eq_some hreset
          simp [renew]
      · exact hrun
      · exact hrun

/-- A call for a pixel off the board paints nothing. -/
theorem paint_outside_result {room : Room} {playerIdx : UInt8} {gen : UInt64} {x y : UInt16}
    {nowMs : UInt64} (h : ¬ room.board.On x y) :
    ¬ (room.paint playerIdx gen x y nowMs).1.Accepted := by
  have hout : x ≥ room.board.width ∨ y ≥ room.board.height := by
    by_contra hin
    rw [not_or, UInt16.not_le, UInt16.not_le] at hin
    exact h hin
  rw [paint, PaintResult.Accepted]
  cases slotOf playerIdx with
  | none => simp
  | some i =>
      simp only [if_pos hout]
      split_ifs <;> simp

/-- The loops of a stroke leave the board alone unless they report a change. -/
theorem foldl_paintCell_unchanged (team : Team) (cells : List (ℤ × ℤ)) (acc : Bool × Board)
    (h : (cells.foldl (paintCell team) acc).1 = false) :
    acc.1 = false ∧ (cells.foldl (paintCell team) acc).2 = acc.2 := by
  induction cells generalizing acc with
  | nil => exact ⟨h, rfl⟩
  | cons cell cells ih =>
      rw [List.foldl_cons] at h ⊢
      obtain ⟨hflag, hboard⟩ := ih _ h
      rw [hboard]
      rw [paintCell] at hflag ⊢
      split_ifs at hflag ⊢
      · rw [Bool.or_eq_false_iff, decide_eq_false_iff_not] at hflag
        refine ⟨hflag.1, ?_⟩
        obtain ⟨-, heq⟩ | ⟨-, -, -, -, hchanged, -⟩ := acc.2.paint_cases
          (UInt16.ofNat cell.1.toNat) (UInt16.ofNat cell.2.toNat) team
        · exact heq
        · exact absurd hchanged hflag.2
      · exact ⟨hflag, rfl⟩

/-- A paint changes the board, or leaves it alone, or finds the game over. -/
theorem paint_outcomes (room : Room) (playerIdx : UInt8) (gen : UInt64) (x y : UInt16)
    (nowMs : UInt64) :
    (room.paint playerIdx gen x y nowMs).2.playerSessions = room.playerSessions ∧
      ((∃ i, room.Paints playerIdx gen x y nowMs i ∧
          (room.paint playerIdx gen x y nowMs).1 = .changed ∧
          (room.paint playerIdx gen x y nowMs).2.state = .running) ∨
        ((room.paint playerIdx gen x y nowMs).1 ≠ .changed ∧
          (room.paint playerIdx gen x y nowMs).2.board = room.board ∧
          (room.paint playerIdx gen x y nowMs).2.generation = room.generation ∧
          (room.paint playerIdx gen x y nowMs).2.state = room.state) ∨
        ((room.paint playerIdx gen x y nowMs).1 ≠ .changed ∧ room.state = .running ∧
          (room.paint playerIdx gen x y nowMs).2 = { room with state := .finished })) := by
  obtain ⟨hchanged, -, heq⟩ | ⟨htime, hstate, -, heq⟩ |
      ⟨i, hslot, hgen, hseat, hstate, hend, hcool, hres, heq⟩ :=
    room.paint_cases playerIdx gen x y nowMs
  · rw [heq]
    exact ⟨rfl, .inr (.inl ⟨hchanged, rfl, rfl, rfl⟩)⟩
  · rw [heq, htime]
    exact ⟨rfl, .inr (.inr ⟨by simp, hstate, rfl⟩)⟩
  · have hon : room.board.On x y := by
      by_contra hoff
      exact paint_outside_result hoff hres
    have hpaints : room.Paints playerIdx gen x y nowMs i :=
      ⟨hslot, hgen, hseat, hon, hstate, hend, hcool⟩
    refine ⟨by rw [heq], ?_⟩
    rcases hres with hres | hres
    · exact .inl ⟨i, hpaints, hres, by rw [heq]; exact hstate⟩
    · refine .inr (.inl ⟨by simp [hres], ?_⟩)
      have hpaint := hpaints.paint_eq
      simp only at hpaint
      rw [hpaint] at hres ⊢
      have hflag : ((brushCells room.brushSize x y).foldl (paintCell (room.playerTeams i))
          (false, room.board)).1 = false := by
        by_contra hflag
        rw [Bool.not_eq_false] at hflag
        simp [hflag] at hres
      exact ⟨(foldl_paintCell_unchanged _ _ _ hflag).2, rfl, rfl⟩

/-- What holds of a room after `n` calls: its board is in order, nobody has painted before the
start, and the generation has not come far. -/
structure Sound (n : ℕ) (room : Room) : Prop where
  accounted : room.board.Accounted
  seated : Seated room
  blank : room.state = .waiting → room.board.IsBlank
  generation : room.generation.toNat ≤ n + 1

theorem isBlank_of_renewed {b b' : Board} (h : Renewed b b') : b'.IsBlank := by
  rcases h with rfl | ⟨w, h, -, hnew⟩
  · exact Board.isBlank_replicate rfl
  · rw [Board.new] at hnew
    split_ifs at hnew
    obtain rfl := Option.some.inj hnew
    exact Board.isBlank_replicate rfl

/-- One call more. -/
theorem Sound.step {n : ℕ} {room room' : Room} {resets : Bool} (h : Sound n room)
    (hstep : Step room resets room') : Sound (n + 1) room' := by
  refine ⟨hstep.accounted h.accounted, h.seated.step hstep, ?_, ?_⟩
  · intro hstate
    cases hstep with
    | vacateRenew i initializer board brush durationMs hslot hboard => exact isBlank_of_renewed hboard
    | renew board brush durationMs hrunning hboard => exact isBlank_of_renewed hboard
    | start nowMs => exact absurd hstate (by simp)
    | finish hrunning => exact absurd hstate (by simp)
    | stroke i cooldown board hrunning => exact absurd (hrunning.symm.trans hstate) (by simp)
    | _ => exact h.blank hstate
  · have hgen := h.generation
    rw [hstep.generation]
    split_ifs
    · simp only [UInt64.toNat_add, UInt64.reduceToNat]
      omega
    · omega

theorem sound_newGameRoom {roomId : UInt64} {w h : UInt16} {room : Room}
    (hnew : newGameRoom roomId w h = some room) : Sound 0 room := by
  refine ⟨accounted_newGameRoom hnew, seated_newGameRoom hnew, fun _ => ?_, ?_⟩
  · rw [newGameRoom, Option.map_eq_some_iff] at hnew
    obtain ⟨board, hboard, rfl⟩ := hnew
    rw [Board.new] at hboard
    split_ifs at hboard
    obtain rfl := Option.some.inj hboard
    exact Board.isBlank_replicate rfl
  · rw [newGameRoom, Option.map_eq_some_iff] at hnew
    obtain ⟨board, -, rfl⟩ := hnew
    exact le_rfl

end Room

/-! ### The handlers -/

/-- **The invariant of a run**, after `n` events: the room is sound, the sessions and the slots
belong together, and, as long as the generations fit into the numbers of a page, the players' pages
show the room and nothing is painted on the others. -/
structure Synced (n : ℕ) (s : Server) : Prop where
  sound : s.room.Sound n
  roster : Rostered s.keys s.room.playerSessions
  views : n + 1 < 2 ^ 53 → Views (Client.Shows s.room) Client.Blank s

/-- The generations of a run that is not too long fit into the numbers of the pages. -/
theorem Room.Sound.safe {n : ℕ} {room : Room} (h : room.Sound n) (hn : n + 1 < 2 ^ 53) :
    room.generation.toNat < 2 ^ 53 :=
  h.generation.trans_lt hn

namespace Synced

variable {n : ℕ} {s : Server}

theorem mono (h : Synced n s) : Synced (n + 1) s :=
  ⟨h.sound.step .idle, h.roster, fun hn => h.views (by omega)⟩

/-- An answer that changes nothing. -/
theorem sendAck (h : Synced n s) (ans : Outside) (addr : UInt64) (reqId : ℤ) (status : String) :
    Synced n (s.sendAck ans addr reqId status) :=
  ⟨h.sound, by simpa using h.roster, fun hn => (h.views hn).sendAck ans addr reqId status⟩

/-- A room has changed, and the pages of the players show it after a `ROOM_STATUS`. -/
theorem broadcastRoomStatus {P : Client → Prop} (ans : Outside) (hsound : s.room.Sound (n + 1))
    (hroster : Rostered s.keys s.room.playerSessions)
    (hviews : n + 2 < 2 ^ 53 → Views P Client.Blank s)
    (hstatus : ∀ v, P v → s.room.generation.toNat < 2 ^ 53 →
      Client.Shows s.room (v.onmessage (roomStatusFrame s.room))) :
    Synced (n + 1) (s.broadcastRoomStatus ans) :=
  ⟨hsound, by simpa using hroster,
    fun hn => (hviews hn).broadcastToRoom ans fun v hv => hstatus v hv (hsound.safe hn)⟩

/-- The game ends, in the middle of a handler or at the end of the timer. -/
theorem gameOver (h : Synced n s) (ans : Outside) (hstate : s.room.state = .running) :
    Synced (n + 1) (s.setRoom ans { s.room with state := .finished }) := by
  have hsound := h.sound.step (.finish hstate)
  have hview : n + 2 < 2 ^ 53 → Views (fun v' => ∃ v, Client.Shows s.room v ∧
        v' = v.onmessage (gameOverFrame { s.room with state := .finished })) Client.Blank
      (({ s with room := { s.room with state := .finished } } : Server).broadcastToRoom ans
        (gameOverFrame { s.room with state := .finished })) := fun hn =>
    ((h.views (by omega)).room _).broadcastToRoom ans fun v hv => ⟨v, hv, rfl⟩
  rw [Server.setRoom, if_pos ⟨hstate, rfl⟩, Server.onGameOver]
  refine broadcastRoomStatus ans hsound ?_ hview ?_
  · rw [Server.keys_broadcastToRoom]
    exact h.roster
  · rintro _ ⟨v, hv, rfl⟩ hsafe
    exact hv.gameOver h.sound.accounted hsafe rfl

theorem joinGame (h : Synced n s) {D : Type} (num : Numbers D) (ans : Outside) {addr : UInt64}
    {session : Session} (hkey : (addr, some session) ∈ s.keys) (root : Obj D) :
    Synced (n + 1) (s.joinGame num ans addr session root) := by
  rw [Server.joinGame]
  cases jsonNumberToInt num (nodeGet root (ascii ['t', 'e', 'a', 'm'])) 1 2 with
  | none => exact (h.sendAck ans addr 0 _).mono
  | some reqTeam =>
      have huser := h.roster.userId _ hkey session rfl
      have hsound := h.sound.step (s.room.step_assignPlayer session.userId (teamOfInt reqTeam))
      obtain ⟨⟨hboard, hgen, hstate⟩, hanswer⟩ :=
        s.room.assignPlayer_answer session.userId (teamOfInt reqTeam)
      rcases hassign : s.room.assignPlayer session.userId (teamOfInt reqTeam) with ⟨answer, room⟩
      simp only [hassign] at hsound hboard hgen hstate hanswer ⊢
      have hset : s.setRoom ans room = { s with room := room } :=
        s.setRoom_eq ans fun hrun => by simp [hstate, hrun]
      have hviews : n + 2 < 2 ^ 53 → Views (Client.Shows room) Client.Blank { s with room := room } :=
        fun hn => ((h.views (by omega)).room room).mono fun v hv => hv.congr hboard hgen hstate
      obtain ⟨rfl, hseats⟩ | ⟨i, canReset, rfl, hwaiting, hseat, hseats⟩ := hanswer
      · simp only [hset]
        refine sendAck ⟨hsound, ?_, hviews⟩ ans addr 0 _
        rw [hseats]
        exact h.roster
      · simp only [hset]
        rw [huser] at hseat hseats
        -- The page of a connection that joins is blank, and so is the board.
        refine broadcastRoomStatus ans hsound ?_
          (fun hn => ((hviews hn).join addr rfl).send ans addr fun _ => rfl) fun v hv hsafe => ?_
        · rw [Server.keys_send]
          show Rostered _ room.playerSessions
          rw [hseats]
          rw [Server.keys_setSession]
          exact h.roster.join h.sound.seated.unique hkey huser rfl (slotOf_ofNat i) hseat
        · have hwaiting' : room.state = .waiting := hstate.trans hwaiting
          rcases hv with hv | hv
          · exact hv.roomStatus hsound.accounted hsafe
          · exact Client.roomStatus_blank (.inl hv) (hsound.blank hwaiting') hwaiting'
              hsound.accounted hsafe

theorem resetGame (h : Synced n s) {D : Type} (num : Numbers D) (ans : Outside) (addr : UInt64)
    (session : Session) (root : Obj D) : Synced (n + 1) (s.resetGame num ans addr session root) := by
  rw [Server.resetGame]
  split
  next w height brush duration _ _ _ _ =>
    have hstep := s.room.step_reset ans.toEnv session.userId (UInt16.ofNat w.toNat)
      (UInt16.ofNat height.toNat) (UInt16.ofNat brush.toNat) (UInt64.ofNat duration.toNat * 1000)
    cases hreset : s.room.reset ans.toEnv session.userId (UInt16.ofNat w.toNat)
        (UInt16.ofNat height.toNat) (UInt16.ofNat brush.toNat) (UInt64.ofNat duration.toNat * 1000) with
    | none => exact (h.sendAck ans addr 0 _).mono
    | some room =>
        rw [hreset] at hstep
        have hsound := h.sound.step hstep
        obtain ⟨board, hboard, rfl⟩ := Room.reset_eq_some hreset
        simp only [Option.getD_some] at hsound ⊢
        rw [s.setRoom_eq ans fun _ => by simp [Room.renew]]
        have hroster : Rostered s.keys (s.room.renew board (UInt16.ofNat brush.toNat)
          (UInt64.ofNat duration.toNat * 1000)).playerSessions := h.roster
        refine broadcastRoomStatus ans hsound (by rwa [Server.keys_sendAck])
          (fun hn => ((h.views (by omega)).room _).sendAck ans addr 0 _) fun v hv hsafe => ?_
        -- The pages still have the generation before the reset.
        refine Client.roomStatus_blank (.inr ?_) (hsound.blank rfl) rfl hsound.accounted hsafe
        rw [hv.generation]
        show s.room.generation.toNat ≠ (s.room.generation + 1).toNat
        simp only [UInt64.toNat_add, UInt64.reduceToNat]
        omega
  next => exact (h.sendAck ans addr 0 _).mono

theorem startGame (h : Synced n s) (ans : Outside) (addr : UInt64) (session : Session) :
    Synced (n + 1) (s.startGame ans addr session) := by
  rw [Server.startGame]
  split_ifs
  · exact (h.sendAck ans addr 0 _).mono
  · have hstep := s.room.step_start ans.toEnv ans.nowMs
    cases hstart : s.room.start ans.toEnv ans.nowMs with
    | none => exact (h.sendAck ans addr 0 _).mono
    | some room =>
        rw [hstart] at hstep
        have hsound : room.Sound (n + 1) := h.sound.step hstep
        obtain ⟨hwaiting, hrunning, hboard, hseats⟩ := Room.start_eq_some hstart
        have hblank : room.board.IsBlank := hboard ▸ h.sound.blank hwaiting
        simp only
        rw [s.setRoom_eq ans fun hrun => absurd (hwaiting.symm.trans hrun) (by simp)]
        refine broadcastRoomStatus (P := Client.Shows room) ans hsound ?_ ?_ fun v hv hsafe =>
          hv.roomStatus hsound.accounted hsafe
        · rw [Server.keys_broadcastToRoom]
          show Rostered s.keys room.playerSessions
          rw [hseats]
          exact h.roster
        · exact fun hn => ((h.views (by omega)).room room).broadcastToRoom ans fun v _ =>
            Client.gameStarted_blank hblank hrunning hsound.accounted (hsound.safe hn) ans.nowMs v

theorem paint (h : Synced n s) (ans : Outside) (addr : UInt64) {session : Session} (reqId : ℤ)
    (reqGen : UInt64) (x y : UInt16) :
    Synced (n + 1) ((s.setRoom ans (s.room.paint session.playerIdx reqGen x y ans.nowMs).2).answerPaint
      ans addr session reqId x y (s.room.paint session.playerIdx reqGen x y ans.nowMs).1) := by
  have hsound := h.sound.step (s.room.step_paint session.playerIdx reqGen x y ans.nowMs)
  -- Every result but a change is answered by an `ACK` alone.
  have hack : ∀ {s' : Server} {res : PaintResult}, res ≠ .changed → Synced (n + 1) s' →
      Synced (n + 1) (s'.answerPaint ans addr session reqId x y res) := by
    intro s' res hres hs'
    cases res with
    | changed => exact absurd rfl hres
    | _ => exact hs'.sendAck ans addr reqId _
  obtain ⟨hseats, ⟨i, hpaints, hres, hrunning⟩ | ⟨hres, hboard, hgen, hstate⟩ |
    ⟨hres, hstate, heq⟩⟩ := s.room.paint_outcomes session.playerIdx reqGen x y ans.nowMs
  · rw [s.setRoom_eq ans fun _ => by simp [hrunning], hres, Server.answerPaint]
    simp only [hpaints.slot, Option.map_some, Option.getD_some]
    refine sendAck ⟨hsound, ?_, fun hn => ((h.views (by omega)).room _).broadcastToRoom ans fun v hv =>
      hv.paintApplied h.sound.seated h.sound.accounted (h.sound.safe (by omega)) hpaints rfl⟩
      ans addr reqId _
    rw [Server.keys_broadcastToRoom, Server.room_broadcastToRoom]
    simp only [hseats]
    exact h.roster
  · refine hack hres ?_
    rw [s.setRoom_eq ans fun hrun => by simp [hstate, hrun]]
    refine ⟨hsound, ?_, fun hn => ((h.views (by omega)).room _).mono fun v hv =>
      hv.congr hboard hgen hstate⟩
    simp only [hseats]
    exact h.roster
  · refine hack hres ?_
    rw [heq]
    exact h.gameOver ans hstate

theorem paintGame (h : Synced n s) {D : Type} (num : Numbers D) (ans : Outside) (addr : UInt64)
    (session : Session) (root : Obj D) : Synced (n + 1) (s.paintGame num ans addr session root) := by
  rw [Server.paintGame]
  split_ifs
  · exact (h.sendAck ans addr 0 _).mono
  · split
    next reqId reqGen _ _ =>
      split_ifs
      · exact (h.sendAck ans addr reqId _).mono
      · split
        next xVal yVal _ _ => exact h.paint ans addr reqId reqGen _ _
        next => exact (h.sendAck ans addr reqId _).mono
    next => exact (h.sendAck ans addr 0 _).mono

theorem wsOpen (h : Synced n s) (ans : Outside) {addr : UInt64} (place : ℕ) (sessionAllocated : Bool)
    (hzero : addr ≠ 0) (hfresh : s.conn? addr = none) :
    Synced (n + 1) (s.onWsOpen ans addr place sessionAllocated) := by
  have hother : ∀ key ∈ s.keys, key.1 ≠ addr := by
    intro key hkey
    obtain ⟨c, hc, rfl⟩ := List.mem_map.mp hkey
    simpa [Conn.key] using List.find?_eq_none.mp hfresh c hc
  have hkeys : ∀ c : Conn,
      ({ s with conns := s.conns.take place ++ c :: s.conns.drop place } : Server).keys =
        s.keys.take place ++ c.key :: s.keys.drop place := by
    simp [Server.keys]
  refine mono ?_
  rw [Server.onWsOpen]
  cases sessionAllocated with
  | true =>
      simp only [if_true]
      refine ⟨h.sound, ?_, fun hn => (h.views hn).insert place (fun hintact => ?_) rfl⟩
      · rw [hkeys, Conn.key_wsSend]
        exact h.roster.insert place hzero hother (by simp)
      · rw [(Conn.page_wsSend rfl hintact).2]
        exact Client.Blank.roomStatus ⟨fun _ _ => rfl, rfl⟩ s.room
  | false =>
      simp only [Bool.false_eq_true, if_false]
      refine ⟨h.sound, ?_, fun hn => (h.views hn).insert place (fun _ => ⟨fun _ _ => rfl, rfl⟩) rfl⟩
      rw [hkeys]
      exact h.roster.insert place hzero hother (by simp)

/-- A connection is about to close. -/
theorem closing (h : Synced n s) (addr : UInt64) :
    Synced n (s.modify addr fun c => { c with isClosing := true }) := by
  refine ⟨h.sound, ?_, fun hn => (h.views hn).closing addr⟩
  rw [Server.modify, s.keys_map fun c => by split_ifs <;> rfl]
  exact h.roster

/-- A connection without a player leaves. -/
theorem spectatorLeaves (h : Synced n s) {addr : UInt64} {session : Option Session}
    (hkey : (addr, session) ∈ s.keys) (hsession : ∀ t, session = some t → t.isJoined = false) :
    Synced n (s.remove addr) := by
  have hremove := h.roster.remove addr
  simp only [if_neg (h.roster.not_seated hkey hsession _)] at hremove
  exact ⟨h.sound, by rwa [Server.keys_remove], fun hn => (h.views hn).remove addr⟩

/-- A player leaves. Whether others stay behind decides whether the room starts again: if it does,
there is no page left to tell. -/
theorem playerLeaves (h : Synced n s) (ans : Outside) {addr : UInt64} {session : Session}
    (hkey : (addr, some session) ∈ s.keys) (hjoined : session.isJoined = true) :
    Synced (n + 1) (((s.setRoom ans
      (s.room.removePlayer ans.toEnv session.playerIdx).2).broadcastRoomStatus ans).remove addr) := by
  have hzero : addr ≠ 0 := h.roster.ne_zero _ hkey
  obtain ⟨i, hslot, hseat⟩ := h.roster.seated _ hkey session rfl hjoined
  have hsound := h.sound.step (s.room.step_removePlayer ans.toEnv session.playerIdx)
  have hstate := s.room.removePlayer_state ans.toEnv session.playerIdx
  have hcases := s.room.removePlayer_cases ans.toEnv session.playerIdx
  generalize (s.room.removePlayer ans.toEnv session.playerIdx).2 = room at hsound hstate hcases ⊢
  obtain ⟨hempty, -⟩ | ⟨i', hslot', -, hleft⟩ := hcases
  · exact absurd (hempty i hslot) (hseat ▸ hzero)
  obtain rfl := Option.some.inj (hslot.symm.trans hslot')
  have hfree : (s.room.vacate i).playerSessions =
      fun j => if s.room.playerSessions j = addr then 0 else s.room.playerSessions j := by
    funext j
    by_cases hj : s.room.playerSessions j = addr
    · have hij : i = j := h.sound.seated.unique i j (hseat ▸ hzero) (hseat.trans hj.symm)
      simp [Room.vacate, ← hij, hseat]
    · have hji : j ≠ i := fun heq => hj (heq ▸ hseat)
      simp [Room.vacate, hj, hji]
  have hseats : room.playerSessions = (s.room.vacate i).playerSessions := by
    obtain ⟨-, rfl⟩ | ⟨-, heq⟩ := hleft
    · rfl
    · exact heq
  have hroster : Rostered (s.keys.filter fun key => decide (key.1 ≠ addr)) room.playerSessions := by
    rw [hseats, hfree]
    exact h.roster.remove addr
  rw [s.setRoom_eq ans hstate]
  have hkeys : ((({ s with room := room } : Server).broadcastRoomStatus ans).remove addr).keys =
      s.keys.filter fun key => decide (key.1 ≠ addr) := by
    rw [Server.keys_remove, Server.keys_broadcastRoomStatus]
    rfl
  refine ⟨hsound, by rwa [hkeys], ?_⟩
  intro hn
  have hviews := (h.views (by omega)).room room
  obtain ⟨-, rfl⟩ | ⟨hempty, -⟩ := hleft
  · have hshows : Views (Client.Shows (s.room.vacate i)) Client.Blank
        { s with room := s.room.vacate i } := hviews.mono fun v hv => hv.congr rfl rfl rfl
    exact (hshows.broadcastToRoom ans fun v hv =>
      hv.roomStatus hsound.accounted (hsound.safe hn)).remove addr
  · refine ((hviews.broadcastToRoom ans fun _ _ => trivial : Views (fun _ => True) _ _).remove
      addr).of_none_joined fun c hc => ?_
    by_contra hcj
    obtain ⟨session', hs', hj'⟩ := (Option.any_eq_true ..).mp (Bool.of_not_eq_false hcj)
    have hmem : c.key ∈ s.keys.filter fun key => decide (key.1 ≠ addr) :=
      hkeys ▸ List.mem_map_of_mem hc
    obtain ⟨j, -, hj⟩ := hroster.seated _ hmem session' hs' hj'
    exact hroster.ne_zero _ hmem (hj.symm.trans (hseats ▸ hempty j))

theorem wsClose (h : Synced n s) (ans : Outside) {c : Conn} (hc : c ∈ s.conns) :
    Synced (n + 1) (s.onWsClose ans c) := by
  have h' := h.closing c.addr
  have hkey : (c.addr, c.session) ∈ (s.modify c.addr fun c => { c with isClosing := true }).keys := by
    rw [Server.modify, s.keys_map fun c => by split_ifs <;> rfl]
    exact List.mem_map_of_mem hc
  rw [Server.onWsClose]
  generalize (s.modify c.addr fun c => { c with isClosing := true }) = s' at h' hkey ⊢
  cases hsession : c.session with
  | none =>
      rw [hsession] at hkey
      exact (h'.spectatorLeaves hkey (by simp)).mono
  | some session =>
      rw [hsession] at hkey
      cases hjoined : session.isJoined with
      | false =>
          simp only [hjoined, Bool.false_eq_true, if_false]
          exact (h'.spectatorLeaves hkey (by simp [hjoined])).mono
      | true =>
          simp only [hjoined, if_true]
          exact h'.playerLeaves ans hkey hjoined

theorem message (h : Synced n s) {D : Type} (num : Numbers D) (ans : Outside) {addr : UInt64}
    {session : Session} (hkey : (addr, some session) ∈ s.keys) (msg : Bytes) :
    Synced (n + 1) (s.onWsMessage num ans addr session msg) := by
  rw [Server.onWsMessage]
  split_ifs
  · exact (h.sendAck ans addr 0 _).mono
  · exact (h.sendAck ans addr 0 _).mono
  · cases parseJSON num.toDouble msg with
    | error e => exact (h.sendAck ans addr 0 _).mono
    | ok root =>
        simp only
        cases nodeGetStringLen root (ascii ['t', 'y', 'p', 'e']) with
        | none => exact (h.sendAck ans addr 0 _).mono
        | some type =>
            simp only
            split_ifs
            · exact h.joinGame num ans hkey root
            · exact h.resetGame num ans addr session root
            · exact h.startGame ans addr session
            · exact h.paintGame num ans addr session root
            · exact (h.sendAck ans addr 0 _).mono

/-- **Every event** keeps the pages in step. -/
theorem exec (h : Synced n s) {D : Type} (num : Numbers D) (event : Event) :
    Synced (n + 1) (s.exec num event) := by
  cases event with
  | wsOpen ans addr place sessionAllocated =>
      rw [Server.exec]
      split_ifs with hrefused
      · exact h.mono
      · rw [not_or, Option.not_isSome_iff_eq_none] at hrefused
        exact h.wsOpen ans place sessionAllocated hrefused.1 hrefused.2
  | message ans addr msg =>
      rw [Server.exec]
      split
      next c session log hc =>
        have haddr : c = addr := by simpa using List.find?_some hc
        have hmem := List.mem_map_of_mem (f := Conn.key) (List.mem_of_find?_eq_some hc)
        rw [← haddr]
        exact h.message num ans hmem msg
      next => exact h.mono
  | closing addr => exact (h.closing addr).mono
  | wsClose ans addr =>
      rw [Server.exec]
      split
      next c hc => exact h.wsClose ans (List.mem_of_find?_eq_some hc)
      next => exact h.mono
  | timerExpired ans =>
      rw [Server.exec, Room.triggerTimeOver]
      split_ifs with hstate
      · rw [s.setRoom_eq ans fun hrun => absurd hrun hstate]
        exact h.mono
      · exact h.gameOver ans (not_not.mp hstate)

end Synced

/-- **A run keeps the invariant.** -/
theorem Synced.run {D : Type} (num : Numbers D) {s : Server} (h : Synced 0 s) (events : List Event) :
    Synced events.length (s.run num events) := by
  induction events using List.reverseRecOn with
  | nil => exact h
  | append_singleton events event ih =>
      rw [List.length_append, List.length_singleton]
      rw [Server.run, List.foldl_append]
      exact ih.exec num event

theorem synced_newServer {roomId : UInt64} {w h : UInt16} {s : Server}
    (hnew : newServer roomId w h = some s) : Synced 0 s := by
  rw [newServer, Option.map_eq_some_iff] at hnew
  obtain ⟨room, hroom, rfl⟩ := hnew
  refine ⟨Room.sound_newGameRoom hroom, ?_, by simp [Views]⟩
  rw [newGameRoom, Option.map_eq_some_iff] at hroom
  obtain ⟨board, -, rfl⟩ := hroom
  exact ⟨List.nodup_nil, by simp [Server.keys], by simp [Server.keys], by simp [Server.keys], by simp⟩

/-- **The players' pages show the room**, in every reachable state: the generation, the size, each
pixel, the scores, and whether the game is on or over. This is so for every connection that has
joined, is not closing and has lost no frame, whatever becomes of the others. -/
theorem pages_show_room {D : Type} (num : Numbers D) (roomId : UInt64) (w h : UInt16) (s₀ : Server)
    (hnew : newServer roomId w h = some s₀) (events : List Event)
    (hlen : events.length + 1 < 2 ^ 53) :
    let s := s₀.run num events
    ∀ c ∈ s.conns, c.isJoined = true → c.isClosing = false → c.Intact → c.page.Shows s.room := by
  intro s c hc hjoined hopen hintact
  have hview := ((synced_newServer hnew).run num events).views hlen c hc hopen hintact
  rwa [if_pos hjoined] at hview

/-! ### A short game -/

/-- Everything succeeds, at a time. -/
def Outside.ok (nowMs : UInt64) : Outside where
  boardAllocated := true
  timerAllocated := true
  timerAdded := true
  timerRemoved := true
  jsonBufAllocated := true
  nowMs := nowMs
  queued := fun _ _ => true

/-- Natural numbers in the place of doubles. -/
def natNumbers : Numbers ℕ := { natDouble with intValue := fun n => some n }

/-- A member of an object with its key. -/
def member (key : List Char) (value : Bytes) : Bytes := quote :: (ascii key ++ quote :: 0x3A :: value)

/-- A text of JSON with a type and numbers. -/
def request (type : Bytes) (numbers : List (List Char × List Char)) : Bytes :=
  0x7B :: (commaSeparated (member ['t', 'y', 'p', 'e'] (quote :: (type ++ [quote])) ::
    numbers.map fun field => member field.1 (ascii field.2)) ++ [0x7D])

/-- Two players come, one starts the game, and the other paints near a corner. -/
def shortGame : List Event :=
  [.wsOpen (.ok 7) 16 0 true, .wsOpen (.ok 7) 32 1 true,
    .message (.ok 7) 16 (request joinGameType [(['t', 'e', 'a', 'm'], ['1'])]),
    .message (.ok 7) 32 (request joinGameType [(['t', 'e', 'a', 'm'], ['2'])]),
    .message (.ok 7) 32 (request startGameType []),
    .message (.ok 9) 16 (request paintType [(['r', 'e', 'q', 'u', 'e', 's', 't', 'I', 'd'], ['1']),
      (['g', 'e', 'n', 'e', 'r', 'a', 't', 'i', 'o', 'n'], ['1']), (['x'], ['1']), (['y'], ['1'])])]

/-- The page of the other player shows the stroke. -/
theorem pages_show_room_sample :
    ∃ s₀, newServer 1 8 8 = some s₀ ∧ ∃ c ∈ (s₀.run natNumbers shortGame).conns, c.addr = 32 ∧
      c.page.pixels 3 0 = .red ∧ c.page.scoreRed = 16 := by
  have hrun : (newServer 1 8 8).any (fun s₀ => decide (
      (∃ c ∈ (s₀.run natNumbers shortGame).conns, c.addr = 32 ∧ c.isJoined = true ∧
        c.isClosing = false ∧ ∀ entry ∈ c.log, entry.2 = true) ∧
      (3 < (s₀.run natNumbers shortGame).room.board.width ∧
        0 < (s₀.run natNumbers shortGame).room.board.height) ∧
      (s₀.run natNumbers shortGame).room.board.get 3 0 = .red ∧
      (s₀.run natNumbers shortGame).room.board.redScore.toNat = 16)) = true := by decide +kernel
  obtain ⟨s₀, hnew, hs⟩ := (Option.any_eq_true ..).mp hrun
  obtain ⟨⟨c, hc, haddr, hjoined, hopen, hintact⟩, hon, hget, hscore⟩ := of_decide_eq_true hs
  have hshows := pages_show_room natNumbers 1 8 8 s₀ hnew shortGame (by decide) c hc hjoined hopen hintact
  refine ⟨s₀, hnew, c, hc, haddr, ?_, hshows.scoreRed.trans hscore⟩
  rw [show c.page.pixels 3 0 = _ from hshows.board.pixels 3 0 hon, hget]
  rfl

end PixelWar
