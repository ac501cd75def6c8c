import Snippets.ExchangeGifts.Caps

/-!
# `ExchangeGifts.Consumed` — a notification is consumed once

A consumed notification leaves a cleared slot of type `NIL` behind, and a slot is found by its id alone: a cleared one under 0,
and one that was written again, which keeps the type, under its new id. `consumedOnce` is what holds for an id that no such slot
has; that there is no notification with the id, or none that the limits let the user receive, is the trivial part of it.
-/

namespace Snippets
namespace ExchangeGifts

open Lib

variable {g : ExchangeGifts} {now : Nat} {infos infos' : InfoMap} {a b u uin id : UInt32} {ret : Int} {call : Call}
  {info info' self recipient : ExchangeGiftsInfo} {notifications notifications' : List Notification} {n : Notification}

/-! ## The property -/

/-- What changes the store: the four calls, and the daily clearing. -/
inductive Event
  | call (call : Call)
  | clearInfoIfExpired (uin : UInt32)

/-- An event at some time that fails no assertion. -/
def EventStep (g : ExchangeGifts) (infos : InfoMap) (e : Nat × Event) (infos' : InfoMap) : Prop :=
  match e.2 with
  | .call call => Step g infos (e.1, call) infos'
  | .clearInfoIfExpired u => infos' = g.clearInfoIfExpired e.1 infos u

/-- The notification that the call writes for its recipient has that id and goes to the entry of the user. -/
def Call.notifies (infos : InfoMap) (uin id : UInt32) : Call → Prop
  | .askForGifts _ b | .sendGifts _ b =>
      (getExchangeGiftsInfo infos b).uin = uin ∧ (getExchangeGiftsInfo infos b).lastNotificationId = id
  | .replyGiftRequest a id' => ∃ n, firstNotification infos a id' = some n ∧
      (getExchangeGiftsInfo infos n.uin).uin = uin ∧ (getExchangeGiftsInfo infos n.uin).lastNotificationId = id
  | .receiveGift _ _ => False

/-- A new notification with that id comes to the entry of the user: from a call that returns 0, or with an info that is cleared,
    which is filed under 0 with what has not expired. -/
def Event.adds (g : ExchangeGifts) (infos : InfoMap) (uin id : UInt32) (now : Nat) : Event → Prop
  | .call call => call.notifies infos uin id ∧ ∃ infos', call.exec g infos now = some (0, infos')
  | .clearInfoIfExpired u => uin = 0 ∧ u ≠ 0 ∧ ((getExchangeGiftsInfo infos u).lastLoginTime.toNat : Int) - now > 24 * 3600 ∧
      ∃ n ∈ removeExpiredNotifications (getExchangeGiftsInfo infos u).notifications g.notificationTtl now, n.id = id

/-- An event that adds no notification with that id. -/
def QuietStep (g : ExchangeGifts) (uin id : UInt32) (infos : InfoMap) (e : Nat × Event) (infos' : InfoMap) : Prop :=
  EventStep g infos e infos' ∧ ¬ e.2.adds g infos uin id e.1

/-- A notification that is not `NIL`. -/
def Notification.live (n : Notification) : Bool := n.type ≠ .nil

/-- No two notifications that are not `NIL` have the same id. -/
def LiveDistinct (notifications : List Notification) : Prop := ((notifications.filter Notification.live).map Notification.id).Nodup

/-- A call refuses and changes nothing. -/
def Refuses (infos : InfoMap) (result : Option (Int × InfoMap)) : Prop := ∃ ret, ret ≠ 0 ∧ result = some (ret, infos)

/-- When `ReceiveGift` returns 0, the notification was live, and until there is a new one with its id nobody gets it again. -/
def ConsumedOnce (g : ExchangeGifts) (infos : InfoMap) (uin id : UInt32) : Prop :=
  ∀ infos', g.receiveGift infos uin id = some (0, infos') →
    (∃ n, firstNotification infos uin id = some n ∧ n.live = true) ∧
      ∀ es infos'', Run (QuietStep g uin id) infos' es infos'' →
        Refuses infos'' (g.receiveGift infos'' uin id) ∧
          ∀ now, Refuses infos'' (g.replyGiftRequest now infos'' uin id)

/-! ## An id that is not there

A call that looks for an id and does not find it refuses. The id comes to an entry only with a new notification;
what is removed leaves a slot with id 0. -/

/-- No notification has that id. -/
def Lacks (id : UInt32) (info : ExchangeGiftsInfo) : Prop := ∀ n ∈ info.notifications, n.id ≠ id

/-- The default entry has no notifications. -/
theorem lacks_default (id : UInt32) : Lacks id {} := fun _ hn => absurd hn List.not_mem_nil

/-- An id that is not there is not found. -/
theorem find_none (h : Lacks id info) : findNotificationAndRemove info.notifications id = none := by
  unfold findNotificationAndRemove
  have hfind : info.notifications.findIdx? (fun n => n.id = id) = none := by
    apply List.findIdx?_eq_none_iff.mpr
    intro n hn
    exact decide_eq_false (h n hn)
  rw [hfind]

/-- One that is there is. -/
theorem find_some (hn : n ∈ notifications) (hid : n.id = id) : ∃ r, findNotificationAndRemove notifications id = some r := by
  unfold findNotificationAndRemove
  cases hfind : notifications.findIdx? (fun n => n.id = id) with
  | none => exact absurd hid (of_decide_eq_false (List.findIdx?_eq_none_iff.mp hfind n hn))
  | some idx =>
      obtain ⟨hidx, -⟩ := List.findIdx?_eq_some_iff_getElem.mp hfind
      dsimp only
      rw [List.getElem?_eq_getElem hidx]
      exact ⟨_, rfl⟩

/-- `ReceiveGift` refuses an id that is not there. -/
theorem refuses_receive (h : Lacks id (getExchangeGiftsInfo infos uin)) : Refuses infos (g.receiveGift infos uin id) := by
  refine ⟨-1, by decide, ?_⟩
  unfold receiveGift
  dsimp only
  rw [find_none h]

/-- `ReplyGiftRequest` refuses it, too. -/
theorem refuses_reply (h : Lacks id (getExchangeGiftsInfo infos uin)) : Refuses infos (g.replyGiftRequest now infos uin id) := by
  refine ⟨-1, by decide, ?_⟩
  unfold replyGiftRequest
  dsimp only
  rw [find_none h]
  split <;> rfl

/-- The info that is filed under `uin` is that of the user, or the default one. -/
theorem lacks_of_filed (h : Filed infos) (huin : (getExchangeGiftsInfo infos a).uin = uin)
    (hlacks : Lacks id (getExchangeGiftsInfo infos uin)) : Lacks id (getExchangeGiftsInfo infos a) := by
  rcases h.uin_eq a with heq | ⟨hnone, -, -⟩
  · rw [← huin, heq] at hlacks
    exact hlacks
  · unfold getExchangeGiftsInfo
    rw [hnone]
    exact lacks_default id

/-- An entry is stored, which lacks the id if it is that of the user. -/
theorem lacks_update (hlacks : Lacks id (getExchangeGiftsInfo infos uin)) (hinfo : info.uin = uin → Lacks id info) :
    Lacks id (getExchangeGiftsInfo (updateExchangeGiftsInfo infos info) uin) := by
  by_cases huin : info.uin = uin
  · rw [get_update huin]
    exact hinfo huin
  · unfold getExchangeGiftsInfo at hlacks ⊢
    rw [update_other (Ne.symm huin)]
    exact hlacks

/-- The entry of the user is stored. -/
theorem lacks_stored (huin : info.uin = uin) (h : Lacks id info) :
    Lacks id (getExchangeGiftsInfo (updateExchangeGiftsInfo infos info) uin) := by
  rw [get_update huin]
  exact h

/-- `FindNotificationAndRemove` leaves the other notifications, and a slot with id 0. -/
theorem lacks_remove {id' : UInt32} (hid : id ≠ 0) (hlacks : ∀ m ∈ notifications, m.id ≠ id)
    (hfind : findNotificationAndRemove notifications id' = some (n, notifications')) : ∀ m ∈ notifications', m.id ≠ id := by
  obtain ⟨idx, -, -, -, -, rfl⟩ := find_spec hfind
  intro m hm
  rcases List.mem_or_eq_of_mem_set hm with hm | rfl
  · exact hlacks m hm
  · exact Ne.symm hid

/-- A new notification has the next id of the entry, so that another id is still not there. -/
theorem lacks_notify {type : NotificationType} {limitNum : Nat} {goods : List GoodsInfo → Option (List GoodsInfo)}
    (hnotify : notify info type limitNum u now goods = some info') (hlacks : Lacks id info) (hid : info.lastNotificationId ≠ id) :
    Lacks id info' := by
  obtain ⟨notifications, n, rfl, -, hall, -, hnew, -⟩ := notify_spec hnotify
  intro m hm
  rcases hall m hm with rfl | hm
  · rw [hnew]
    exact hid
  · exact hlacks m hm

/-- `std::partition` makes up no elements. -/
theorem partition_subset {α : Type} {keep : α → Bool} {fuel : Nat} {xs : List α} {x : α} (hx : x ∈ partition keep fuel xs) :
    x ∈ xs := by
  induction fuel generalizing xs with
  | zero => cases hx
  | succ fuel ih =>
      cases xs with
      | nil => cases hx
      | cons y ys =>
          unfold partition at hx
          split at hx
          · rcases List.mem_cons.mp hx with rfl | hx
            · exact List.mem_cons_self
            · exact List.mem_cons_of_mem _ (ih hx)
          · have hprefix := List.rdropWhile_prefix (fun y => !keep y) (l := ys)
            dsimp only at hx
            split at hx
            · cases hx
            · rename_i z hz
              apply List.mem_cons_of_mem
              apply hprefix.subset
              rcases List.mem_cons.mp hx with rfl | hx
              · exact List.mem_of_getLast? hz
              · exact List.mem_of_mem_dropLast (ih hx)

/-! ## Steps and runs

The id stays away in every step that adds no notification with it, and so over a run. -/

/-- The stores of an accepted call: two entries, or one for `ReceiveGift`. -/
theorem effect_lacks (h : Filed infos) (hid : id ≠ 0) (he : Effect g now infos call infos')
    (hquiet : ¬ call.notifies infos uin id) (hlacks : Lacks id (getExchangeGiftsInfo infos uin)) :
    Filed infos' ∧ Lacks id (getExchangeGiftsInfo infos' uin) := by
  cases he with
  | @ask a b gifts recipient _ hnotify =>
      refine ⟨filed_updateTwo h _ _, lacks_update (lacks_update hlacks ?_) ?_⟩
      · intro huin
        exact lacks_of_filed h huin hlacks
      · intro huin
        rw [(notify_uin hnotify).1] at huin
        exact lacks_notify hnotify (lacks_of_filed h huin hlacks) fun hnew => hquiet ⟨huin, hnew⟩
  | @send a b gifts recipient _ hnotify =>
      refine ⟨filed_updateTwo h _ _, lacks_update (lacks_update hlacks ?_) ?_⟩
      · intro huin
        exact lacks_of_filed h huin hlacks
      · intro huin
        have huin' : (getExchangeGiftsInfo infos b).uin = uin := (notify_uin hnotify).1.symm.trans huin
        have hrecipient : Lacks id recipient :=
          lacks_notify hnotify (lacks_of_filed h huin' hlacks) fun hnew => hquiet ⟨huin', hnew⟩
        exact hrecipient
  -- the entry of the caller has a slot less, that of the other user a new notification
  | @reply a id' n notifications recipient hfind hnotify =>
      refine ⟨filed_updateTwo h _ _, lacks_update (lacks_update hlacks ?_) ?_⟩
      · intro huin
        exact lacks_remove hid (lacks_of_filed h huin hlacks) hfind
      · intro huin
        have huin' : (getExchangeGiftsInfo infos n.uin).uin = uin := (notify_uin hnotify).1.symm.trans huin
        have hfirst := firstNotification_of_some hfind
        have hrecipient : Lacks id recipient :=
          lacks_notify hnotify (lacks_of_filed h huin' hlacks) fun hnew => hquiet ⟨n, hfirst, huin', hnew⟩
        exact hrecipient
  | @receive a id' n notifications hfind =>
      refine ⟨h.update _, lacks_update hlacks ?_⟩
      intro huin
      exact lacks_remove hid (lacks_of_filed h huin hlacks) hfind

/-- **An event that adds no notification with the id** does not bring it back. -/
theorem quietStep_lacks {e : Nat × Event} (h : Filed infos) (hid : id ≠ 0) (hstep : QuietStep g uin id infos e infos')
    (hlacks : Lacks id (getExchangeGiftsInfo infos uin)) : Filed infos' ∧ Lacks id (getExchangeGiftsInfo infos' uin) := by
  obtain ⟨now, event⟩ := e
  obtain ⟨hstep, hquiet⟩ := hstep
  cases event with
  | call call =>
      obtain ⟨ret, hexec⟩ := hstep
      rcases exec_inv hexec with ⟨-, rfl, -⟩ | ⟨rfl, he⟩
      · exact ⟨h, hlacks⟩
      · exact effect_lacks h hid he (fun hnew => hquiet ⟨hnew, infos', hexec⟩) hlacks
  | clearInfoIfExpired u =>
      have hcleared : infos' = g.clearInfoIfExpired now infos u := hstep
      rw [hcleared]
      unfold clearInfoIfExpired
      dsimp only
      split
      · rename_i hexpired
        refine ⟨h.update _, lacks_update hlacks ?_⟩
        -- the cleared info is filed under 0: it was there before, or it adds its notifications
        intro huin m hm
        by_cases hu : u = 0
        · subst hu
          rw [← huin] at hlacks
          exact hlacks m (partition_subset hm)
        · intro heq
          exact hquiet ⟨huin.symm, hu, hexpired, m, hm, heq⟩
      · exact ⟨h, hlacks⟩

/-- A run that adds no notification with the id. -/
theorem quietRun_lacks {es : List (Nat × Event)} (h : Filed infos) (hid : id ≠ 0)
    (hrun : Run (QuietStep g uin id) infos es infos') (hlacks : Lacks id (getExchangeGiftsInfo infos uin)) :
    Lacks id (getExchangeGiftsInfo infos' uin) := by
  have hboth : Filed infos' ∧ Lacks id (getExchangeGiftsInfo infos' uin) := by
    apply hrun.invariant (I := fun infos => Filed infos ∧ Lacks id (getExchangeGiftsInfo infos uin)) _ ⟨h, hlacks⟩
    intro s e t hs hstep
    exact quietStep_lacks hs.1 hid hstep hs.2
  exact hboth.2

/-- Two notifications that are live do not have the same id. -/
theorem live_unique (hdistinct : LiveDistinct notifications) {i j : Nat} (hi : i < notifications.length)
    (hj : j < notifications.length) (hlt : i < j) (hli : notifications[i].live = true) (hlj : notifications[j].live = true) :
    notifications[i].id ≠ notifications[j].id := by
  unfold LiveDistinct List.Nodup at hdistinct
  rw [List.pairwise_map, List.pairwise_filter, List.pairwise_iff_getElem] at hdistinct
  exact hdistinct i j hi hj hlt hli hlj

/-- When live ids are distinct and no `NIL` slot has the id, one notification has it at most. -/
theorem lacks_after_remove (hdistinct : LiveDistinct notifications) (hid : id ≠ 0)
    (hnil : ∀ n ∈ notifications, n.id = id → n.live = true)
    (hfind : findNotificationAndRemove notifications id = some (n, notifications')) : ∀ m ∈ notifications', m.id ≠ id := by
  obtain ⟨idx, hidx, rfl, hn, hfirst, rfl⟩ := find_spec hfind
  intro m hm heq
  obtain ⟨j, hj, rfl⟩ := List.getElem_of_mem hm
  rw [List.getElem_set] at heq
  split at heq
  · exact hid heq.symm
  · rename_i hne
    rw [List.length_set] at hj
    rcases Nat.lt_or_ge j idx with hlt | hge
    · exact hfirst j hlt heq
    · have hlt : idx < j := Nat.lt_of_le_of_ne hge hne
      exact live_unique hdistinct hidx hj hlt (hnil _ (List.getElem_mem hidx) hn) (hnil _ (List.getElem_mem hj) heq)
        (hn.trans heq.symm)

/-- Otherwise a slot that is not live is found: this time, or the next time. -/
theorem finds_nil (hdistinct : LiveDistinct notifications)
    (hcase : id = 0 ∨ ∃ m ∈ notifications, m.type = .nil ∧ m.id = id)
    (hfind : findNotificationAndRemove notifications id = some (n, notifications')) :
    n.live = false ∨ ∃ m rest, findNotificationAndRemove notifications' id = some (m, rest) ∧ m.live = false := by
  obtain ⟨idx, hidx, rfl, hn, -, rfl⟩ := find_spec hfind
  cases hlive : notifications[idx].live with
  | false => exact Or.inl rfl
  | true =>
      right
      -- the slot that is left, or the one that had the id before
      have hleft : ∃ m ∈ notifications.set idx { type := .nil }, m.id = id := by
        rcases hcase with rfl | ⟨m, hm, htype, hid⟩
        · exact ⟨_, List.mem_set hidx _, rfl⟩
        · obtain ⟨j, hj, rfl⟩ := List.getElem_of_mem hm
          have hne : idx ≠ j := by
            rintro rfl
            exact of_decide_eq_true hlive htype
          refine ⟨notifications[j], ?_, hid⟩
          have hset : (notifications.set idx { type := .nil })[j]? = some notifications[j] := by
            rw [List.getElem?_set_ne hne, List.getElem?_eq_getElem hj]
          exact List.mem_of_getElem? hset
      obtain ⟨m₀, hm₀, hid₀⟩ := hleft
      obtain ⟨⟨m, rest⟩, hnext⟩ := find_some hm₀ hid₀
      refine ⟨m, rest, hnext, ?_⟩
      obtain ⟨k, hk, rfl, hid, -⟩ := find_spec hnext
      rw [List.getElem_set] at hid ⊢
      by_cases hki : idx = k
      · rw [if_pos hki]
        rfl
      · rw [if_neg hki] at hid ⊢
        rw [List.length_set] at hk
        apply Bool.eq_false_iff.mpr
        intro hlive'
        rcases Nat.lt_or_gt_of_ne hki with hlt | hgt
        · exact live_unique hdistinct hidx hk hlt hlive hlive' (hn.trans hid.symm)
        · exact live_unique hdistinct hk hidx hgt hlive' hlive (hid.trans hn.symm)

/-- The first notification with that id is `n`, and the daily limits let the user receive it. -/
def Receivable (g : ExchangeGifts) (infos : InfoMap) (uin id : UInt32) (n : Notification) : Prop :=
  firstNotification infos uin id = some n ∧ (getExchangeGiftsInfo infos uin).receiveRecords.length ≤ g.maxDayReceiveNum ∧
    reachReceiveFromSameUinLimit (getExchangeGiftsInfo infos uin).receiveRecords n.uin g.maxDayReceiveNumFromSameOne = false

/-- What `ReceiveGift` makes of the info of the user when it returns 0. -/
def ExchangeGiftsInfo.received (info : ExchangeGiftsInfo) (n : Notification) (notifications : List Notification) :
    ExchangeGiftsInfo :=
  { info with notifications := notifications, receiveRecords := info.receiveRecords ++ [⟨n.uin⟩] }

/-- What `ReceiveGift` leaves when it returns 0. -/
def received (infos : InfoMap) (uin : UInt32) (n : Notification) (notifications : List Notification) : InfoMap :=
  updateExchangeGiftsInfo infos ((getExchangeGiftsInfo infos uin).received n notifications)

/-- The entry that `ReceiveGift` has stored. -/
theorem get_received (notifications : List Notification) (huin : (getExchangeGiftsInfo infos uin).uin = uin) :
    (getExchangeGiftsInfo (received infos uin n notifications) uin).notifications = notifications := by
  have huin' : ((getExchangeGiftsInfo infos uin).received n notifications).uin = uin := huin
  unfold received
  rw [get_update huin']
  rfl

/-- `ReceiveGift` returns 0 for a notification that can be received, and for no other. -/
theorem receiveGift_zero_iff : g.receiveGift infos uin id = some (0, infos') ↔
    ∃ n notifications, findNotificationAndRemove (getExchangeGiftsInfo infos uin).notifications id = some (n, notifications) ∧
      Receivable g infos uin id n ∧ infos' = received infos uin n notifications := by
  unfold receiveGift
  dsimp only
  cases hfind : findNotificationAndRemove (getExchangeGiftsInfo infos uin).notifications id with
  | none =>
      constructor
      · intro h
        cases h
      · rintro ⟨n, notifications, h, -⟩
        cases h
  | some found =>
      obtain ⟨n, notifications⟩ := found
      dsimp only
      constructor
      · intro h
        split at h
        · cases h
        rename_i hday
        split at h
        · cases h
        rename_i hsame
        cases h
        exact ⟨n, notifications, rfl, ⟨firstNotification_of_some hfind, Nat.le_of_not_gt hday, Bool.eq_false_iff.mpr hsame⟩, rfl⟩
      · rintro ⟨_, _, heq, ⟨-, hday, hsame⟩, rfl⟩
        cases heq
        rw [if_neg (Nat.not_lt.mpr hday), if_neg (Bool.eq_false_iff.mp hsame)]
        rfl

/-- No notification can be received, or its id is not 0 and no `NIL` slot has it. -/
def Spared (g : ExchangeGifts) (infos : InfoMap) (uin id : UInt32) : Prop :=
  (∃ n, Receivable g infos uin id n) →
    id ≠ 0 ∧ ∀ n ∈ (getExchangeGiftsInfo infos uin).notifications, n.type = .nil → n.id ≠ id

/-- `ReceiveGift` takes a slot that is not live, or leaves one to be found by the next call with the same id. -/
def TakesNil (g : ExchangeGifts) (infos : InfoMap) (uin id : UInt32) : Prop :=
  ∃ infos' n, g.receiveGift infos uin id = some (0, infos') ∧
    (firstNotification infos uin id = some n ∨ firstNotification infos' uin id = some n) ∧ n.live = false

theorem consumedOnce_of_spared (h : Filed infos) (huin : (getExchangeGiftsInfo infos uin).uin = uin)
    (hdistinct : LiveDistinct (getExchangeGiftsInfo infos uin).notifications) (hspared : Spared g infos uin id) :
    ConsumedOnce g infos uin id := by
  intro infos' hreceive
  obtain ⟨n, notifications, hfind, hreceivable, rfl⟩ := receiveGift_zero_iff.mp hreceive
  obtain ⟨hid, hnil⟩ := hspared ⟨n, hreceivable⟩
  have hlive : ∀ n ∈ (getExchangeGiftsInfo infos uin).notifications, n.id = id → n.live = true := by
    intro n hn heq
    apply decide_eq_true
    intro htype
    exact hnil n hn htype heq
  constructor
  · obtain ⟨idx, hidx, hn, hnid, -⟩ := find_spec hfind
    refine ⟨n, hreceivable.1, hlive n ?_ hnid⟩
    rw [← hn]
    exact List.getElem_mem hidx
  · -- no slot has the id any more, and none gets it
    intro es infos'' hrun
    have hafter : Lacks id (getExchangeGiftsInfo (received infos uin n notifications) uin) :=
      lacks_stored huin (lacks_after_remove hdistinct hid hlive hfind)
    have hlacks := quietRun_lacks (h.update _) hid hrun hafter
    exact ⟨refuses_receive hlacks, fun _ => refuses_reply hlacks⟩

theorem takesNil_of_not_spared (huin : (getExchangeGiftsInfo infos uin).uin = uin)
    (hdistinct : LiveDistinct (getExchangeGiftsInfo infos uin).notifications) (hspared : ¬ Spared g infos uin id) :
    TakesNil g infos uin id := by
  obtain ⟨⟨n, hreceivable⟩, hcase⟩ := Classical.not_imp.mp hspared
  obtain ⟨⟨n', notifications⟩, hfind, rfl⟩ := Option.map_eq_some_iff.mp hreceivable.1
  have hreceive := receiveGift_zero_iff.mpr ⟨_, notifications, hfind, hreceivable, rfl⟩
  have hnil : id = 0 ∨ ∃ m ∈ (getExchangeGiftsInfo infos uin).notifications, m.type = .nil ∧ m.id = id := by
    by_contra hnone
    apply hcase
    refine ⟨fun hzero => hnone (Or.inl hzero), ?_⟩
    intro m hm htype hid
    exact hnone (Or.inr ⟨m, hm, htype, hid⟩)
  rcases finds_nil hdistinct hnil hfind with hdead | ⟨m, rest, hnext, hdead⟩
  · exact ⟨_, _, hreceive, Or.inl hreceivable.1, hdead⟩
  · have hfind' : findNotificationAndRemove (getExchangeGiftsInfo (received infos uin n' notifications) uin).notifications id =
        some (m, rest) := by
      rw [get_received notifications huin]
      exact hnext
    exact ⟨_, m, hreceive, Or.inr (firstNotification_of_some hfind'), hdead⟩

/-- **A notification is consumed once**, unless one can be received whose id is 0 or is that of a `NIL` slot as well; and then a
    `NIL` slot is taken for a notification. -/
theorem consumedOnce (h : Filed infos) (hinfo : infos uin = some info) (hdistinct : LiveDistinct info.notifications) :
    (Spared g infos uin id → ConsumedOnce g infos uin id) ∧ (¬ Spared g infos uin id → TakesNil g infos uin id) := by
  have hget : getExchangeGiftsInfo infos uin = info := by
    unfold getExchangeGiftsInfo
    rw [hinfo]
    rfl
  have huin : (getExchangeGiftsInfo infos uin).uin = uin := by
    rw [hget]
    exact h uin info hinfo
  rw [← hget] at hdistinct
  exact ⟨consumedOnce_of_spared h huin hdistinct, takesNil_of_not_spared huin hdistinct⟩

/-- The user 1 has one notification, from the user 2. -/
def notifiedUser (id : UInt32) : InfoMap := fun u =>
  if u = 1 then some { uin := 1, notifications := [{ uin := 2, id := id, createTime := 7 }], lastNotificationId := id + 1 } else none

/-- The one entry is filed under the uin of the user. -/
theorem filed_notifiedUser (id : UInt32) : Filed (notifiedUser id) := by
  intro u info hu
  unfold notifiedUser at hu
  split at hu
  · rename_i heq
    cases hu
    exact heq.symm
  · cases hu

/-- A user with a notification of id 3 can receive it, once. -/
theorem consumedOnce_three : (∃ infos', oneGift.receiveGift (notifiedUser 3) 1 3 = some (0, infos')) ∧
    ConsumedOnce oneGift (notifiedUser 3) 1 3 := by
  have hdistinct : LiveDistinct [{ uin := 2, id := 3, createTime := 7 }] := by
    unfold LiveDistinct
    decide
  exact ⟨⟨_, rfl⟩, (consumedOnce (filed_notifiedUser 3) rfl hdistinct).1 fun _ => ⟨by decide, by decide⟩⟩

/-- The first notification of a user has the id 0, and so has the slot it leaves: it is received twice. -/
theorem not_consumedOnce_zero : ∃ infos' infos'', oneGift.receiveGift (notifiedUser 0) 1 0 = some (0, infos') ∧
    oneGift.receiveGift infos' 1 0 = some (0, infos'') ∧ ¬ ConsumedOnce oneGift (notifiedUser 0) 1 0 := by
  refine ⟨_, _, rfl, rfl, ?_⟩
  intro h
  obtain ⟨-, hlater⟩ := h _ rfl
  obtain ⟨⟨ret, hret, heq⟩, -⟩ := hlater [] _ Run.refl
  have hcode := congrArg (fun r => r.map Prod.fst) heq
  have hzero : ret = 0 := (Option.some.inj hcode).symm
  exact hret hzero

end ExchangeGifts
end Snippets
