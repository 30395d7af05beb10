import LibCore.ServerLifecycle

/-!
# Walks over the Connections

`HttpServer_begin_shutdown` and `Broadcast_To_Room` walk the list of connections and save `next`
before they handle a connection. Handling one connection may shut others down, through a send that
fails or through `on_ws_close` and what it calls. If that takes the saved connection out of the list,
its links are cleared and the walk ends there.

## Main results

* `walks_complete_iff`: a walk misses no connection exactly if no round takes the saved connection
  out of the list while something is left behind it.
* `shutdown_misses_connection`: a graceful shutdown that misses one.
-/

open CString

namespace Server

namespace World

/-- The connections in the list. -/
def connList (w : World) : List ConnId :=
  Dll.Links.follow (fun c => (w.conns c).next) w.nextConn w.connsHead

end World

theorem connList_eq {w : World} {nodes : List ConnId} (hrep : w.links.Represents nodes)
    (hlen : nodes.length ≤ w.nextConn) : w.connList = nodes := hrep.follow_eq hlen

theorem Lifecycle.connList {w : World} (h : Lifecycle w) :
    w.links.Represents w.connList ∧ w.connList.length ≤ w.nextConn ∧
      ∀ c, c ∈ w.connList ↔ w.Accepted c ∧ (w.conns c).shutdownDone = false := by
  obtain ⟨nodes, hrep, hnodes⟩ := h.linked
  have hlen : nodes.length ≤ w.nextConn := by
    have hsub : nodes ⊆ List.range w.nextConn := fun c hc =>
      List.mem_range.mpr ((hnodes c).mp hc).1
    simpa using (hrep.nodup.subperm hsub).length_le
  rw [connList_eq hrep hlen]
  exact ⟨hrep, hlen, hnodes⟩

theorem connList_congr {w w' : World} (hlinks : w'.links = w.links)
    (hnext : w'.nextConn = w.nextConn) : w'.connList = w.connList := by
  show Dll.Links.follow w'.links.next w'.nextConn w'.links.head =
    Dll.Links.follow w.links.next w.nextConn w.links.head
  rw [hlinks, hnext]

/-- No step puts a connection into the list or reorders it. -/
theorem Micro.connList_sublist {lossless : Prop} {w w' : World} (hstep : Micro lossless w w')
    (h : Lifecycle w) : w'.connList.Sublist w.connList := by
  cases hstep with
  | edit c f hedit =>
      exact (connList_congr (links_modify hedit.next hedit.prev) rfl).symm ▸ List.Sublist.refl _
  | server w' hconns hnext hhead hdeferred hcloses hshutdowns hstops =>
      have hlinks : w'.links = w.links := by simp [World.links, hconns, hhead]
      exact (connList_congr hlinks hnext).symm ▸ List.Sublist.refl _
  | announce c hmode hnotified called hcalled =>
      have hlinks : (w.modify c fun x => { x with wsCloseNotified := true }).links = w.links :=
        links_modify rfl rfl
      exact (connList_congr hlinks rfl).symm ▸ List.Sublist.refl _
  | shutdown c cause hdone hempty =>
      have hlinks : (w.modify c fun x => { x with isClosing := true }).links = w.links :=
        links_modify rfl rfl
      exact (connList_congr hlinks rfl).symm ▸ List.Sublist.refl _
  | leave c hdone hclosing =>
      have hserver : (w.conns c).server = true := by simp [h.server c, hdone]
      obtain ⟨hrep, hlen, hnodes⟩ := h.connList
      obtain ⟨a, b, hsplit⟩ := List.append_of_mem ((hnodes c).mpr ⟨h.accepted c hdone, hdone⟩)
      rw [hsplit] at hrep hlen ⊢
      have hrep' : (w.leave c).links.Represents (a ++ b) := links_leave hserver ▸ hrep.unlink
      have hlen' : (a ++ b).length ≤ (w.leave c).nextConn := by
        rw [World.leave_eq]
        simp at hlen ⊢
        omega
      rw [connList_eq hrep' hlen']
      exact (List.Sublist.refl a).append (List.sublist_cons_self c b)
  | discard c hdone =>
      have hlinks : (w.modify c fun x => { x with outBuf := [], discarded := true }).links = w.links :=
        links_modify rfl rfl
      exact (connList_congr hlinks rfl).symm ▸ List.Sublist.refl _
  | stop hlistener hhead hdrain => exact List.Sublist.refl _

/-! ### Completeness -/

namespace World

/-- A walk has visited every connection that was in the list when it began and still is when it
ends. -/
def VisitsAll (handle : ConnId → World → World) (w : World) : Prop :=
  ∀ c ∈ w.connList, c ∈ (w.walk handle).2.connList → c ∈ (w.walk handle).1

/-- Every round of a walk leaves the saved connection in the list, or nothing of what was behind
it. -/
def KeepsNext (handle : ConnId → World → World) (w : World) : Prop :=
  Dll.Kept nextOf handle connList w.nextConn w.connsHead w

end World

section Walks

variable {handle : ConnId → World → World}
  (hhandle : ∀ c w, Quiet False nobody w (handle c w))
  (houter : ∀ {w : World} {c : ConnId}, Lifecycle w → (w.conns c).shutdownDone = true →
    (handle c w).connList = w.connList)

include hhandle houter

/-- Handling a connection is what a walk needs it to be. -/
theorem walkable : Dll.Walkable World.nextOf handle World.connList Lifecycle where
  nodup h := h.connList.1.nodup
  next_inner h hsplit := (h.connList.1.inner _ _ _ hsplit).1
  next_outer h hc := (h.connList.1.outer _ hc).1
  handle_good c h := Steps.invariant (fun hstep hw => hw.micro hstep) (hhandle c _).steps h
  handle_sublist {w} c h := by
    have hchain {w' : World} (hsteps : Steps False w w') :
        Lifecycle w' ∧ w'.connList.Sublist w.connList := by
      induction hsteps with
      | refl => exact ⟨h, .refl _⟩
      | tail _ hstep ih => exact ⟨ih.1.micro hstep, (hstep.connList_sublist ih.1).trans ih.2⟩
    exact (hchain (hhandle c w).steps).2
  handle_outer {w c} h hc := by
    refine houter h ?_
    by_contra hdone
    have hopen : (w.conns c).shutdownDone = false := by simpa using hdone
    exact hc ((h.connList.2.2 c).mpr ⟨h.accepted c hopen, hopen⟩)

theorem visitsAll_iff {w : World} (hw : Lifecycle w) :
    w.VisitsAll handle ↔ w.KeepsNext handle := by
  obtain ⟨hrep, hlen, -⟩ := hw.connList
  have hhead : w.connsHead = w.connList.head? := hrep.head
  rw [World.VisitsAll, World.KeepsNext, World.walk, hhead]
  exact Dll.walk_complete_iff (walkable hhandle houter) hw hlen

end Walks

section Callbacks

variable (onWsClose : OnWsClose) (depth : ℕ)

theorem closeForShutdown_outer {w : World} {c : ConnId} (hw : Lifecycle w)
    (hdone : (w.conns c).shutdownDone = true) (notify : ConnId → World → World) :
    (World.closeForShutdown notify c w).connList = w.connList := by
  have hclosing := hw.closing c (.inl hdone)
  rw [World.closeForShutdown]
  split_ifs with hmode
  · rw [World.wsClose, if_pos (.inr hclosing)]
  · have hself := w.modify_self c fun x => { x with isClosing := true, keepAlive := false }
    dsimp only
    rw [World.connShutdown, hself, if_pos (by simp [hdone])]
    exact connList_congr (links_modify rfl rfl) rfl

theorem sendToMember_outer {w : World} {c : ConnId} (hw : Lifecycle w)
    (hdone : (w.conns c).shutdownDone = true) (notify : ConnId → World → World) (room : ℕ)
    (buf : Bytes) : (World.sendToMember notify room buf c w).connList = w.connList := by
  have hclosing := hw.closing c (.inl hdone)
  rw [World.sendToMember, if_neg (by simp [World.isMember, hclosing])]

/-- **When the walks miss no connection.** The walk of `HttpServer_begin_shutdown` and that of
`Broadcast_To_Room` visit every connection that stays in the list exactly if every round leaves the
saved connection in the list, or nothing of what was behind it. -/
theorem walks_complete_iff (w : World) (hw : Lifecycle w) :
    (w.VisitsAll (World.closeForShutdown (World.notifyWsClose onWsClose depth)) ↔
        w.KeepsNext (World.closeForShutdown (World.notifyWsClose onWsClose depth))) ∧
      ∀ room buf,
        w.VisitsAll (World.sendToMember (World.notifyWsClose onWsClose depth) room buf) ↔
          w.KeepsNext (World.sendToMember (World.notifyWsClose onWsClose depth) room buf) := by
  have hnotify : Notifies False (World.notifyWsClose onWsClose depth) :=
    notifies_notifyWsClose onWsClose depth
  have hsafe (w : World) : Safe False w := fun h => h.elim
  refine ⟨visitsAll_iff (fun c w => ?_) (fun hw hdone => ?_) hw, fun room buf =>
    visitsAll_iff (fun c w => ?_) (fun hw hdone => ?_) hw⟩
  · exact (quiet_closeForShutdown hnotify c (hsafe w) fun h => h.elim).1.nobody
  · exact closeForShutdown_outer hw hdone _
  · exact (quiet_sendToMember hnotify (hsafe w) room buf c).nobody
  · exact sendToMember_outer hw hdone _ room buf

end Callbacks

/-! ### The callbacks of the game room -/

/-- `Broadcast_To_Room` inside a callback. -/
def broadcastScript (room : ℕ) (buf : Bytes) : ℕ → Option ConnId → World → Script WsCall
  | 0, _, _ => .done
  | _ + 1, none, _ => .done
  | fuel + 1, some c, w =>
      let next := w.nextOf c
      if w.isMember room c then .call (.send c buf) fun _ w => broadcastScript room buf fuel next w
      else broadcastScript room buf fuel next w

/-- `GameRoomHandler_on_ws_close`, with the room status it broadcasts. -/
def gameRoomOnWsClose (status : Bytes) : OnWsClose := fun c w =>
  match (w.conns c).wsUserData with
  | none => .done
  | some session =>
      (if session.isJoined then broadcastScript session.room status w.nextConn w.connsHead w
        else .done).andThen (.call (.setUserData c none) fun _ _ => .done)

/-- A browser opens a connection and joins the room. -/
def joinEvents (c : ConnId) : List Event :=
  [.readable c [.request true true
      (fun _ => .call (.appendSend [0x31, 0x30, 0x31]) fun _ _ => .call .flush fun _ _ => .done)
      (fun _ => .call (.setUserData c (some ⟨0, false⟩)) fun _ _ => .done) true [] false],
    .readable c [.frames [.message fun _ =>
      .call (.setUserData c (some ⟨0, true⟩)) fun _ _ => .done]]]

/-- Three players in a room, when the server begins to shut down; the first three answers of `send`
are for the responses to the upgrades. -/
def playersAtShutdown (sends : List SendResult) : World :=
  World.enterShutdown 0 (run (gameRoomOnWsClose [0x73]) 3
    (World.new ([.sent 3, .sent 3, .sent 3] ++ sends) [] [] [])
    (.accept [true, true, true] :: (joinEvents 0 ++ joinEvents 1 ++ joinEvents 2)))

theorem lifecycle_playersAtShutdown (sends : List SendResult) :
    Lifecycle (playersAtShutdown sends) := by
  have hrun := lifecycle_run (gameRoomOnWsClose [0x73]) 3
    (.accept [true, true, true] :: (joinEvents 0 ++ joinEvents 1 ++ joinEvents 2))
    ([.sent 3, .sent 3, .sent 3] ++ sends) [] [] []
  have hsafe {w : World} : Safe False w := fun h => h.elim
  exact Steps.invariant (fun hstep hw => hw.micro hstep)
    (quiet_enterShutdown 0 hsafe fun h => h.elim).1.steps hrun

theorem walks_complete_iff_players :
    Lifecycle (playersAtShutdown (.replicate 6 (.sent 3))) ∧
      (playersAtShutdown (.replicate 6 (.sent 3))).KeepsNext
        (World.closeForShutdown (World.notifyWsClose (gameRoomOnWsClose [0x73]) 3)) := by
  have hw := lifecycle_playersAtShutdown (.replicate 6 (.sent 3))
  refine ⟨hw, (walks_complete_iff (gameRoomOnWsClose [0x73]) 3 _ hw).1.mp ?_⟩
  rw [World.VisitsAll]
  decide +kernel

/-- The close frame of the third player goes out, and its `on_ws_close` tells the others. The socket
of the second player is broken, so the second player leaves the list, and the walk, which has saved
it, ends there. The first player is not told to close. -/
theorem shutdown_misses_connection :
    ¬(playersAtShutdown [.sent 2, .failed false, .sent 3, .sent 3]).VisitsAll
      (World.closeForShutdown (World.notifyWsClose (gameRoomOnWsClose [0x73]) 3)) := by
  rw [World.VisitsAll]
  decide +kernel

end Server
