import Snippets.ExchangeGifts.Model

/-!
# `ExchangeGifts.Filing` — each user's data under that user

`Effect` says once what a call that returns 0 has written. The info of a user who has none yet is the default one, whose `uin` is
0, and that is where it is filed; and when both infos are of one user, the second update undoes the first. `filedRight_iff` says
that a call leaves everything with the right users exactly when neither happens.
-/

namespace Snippets
namespace ExchangeGifts

variable {g : ExchangeGifts} {now : Nat} {infos infos' : InfoMap} {a b u uin id : UInt32} {ret : Int} {call : Call}
  {info info' self recipient : ExchangeGiftsInfo} {type : NotificationType} {limitNum idx : Nat} {n m : Notification}
  {notifications notifications' : List Notification} {goods : List GoodsInfo → Option (List GoodsInfo)}

/-! ## One notification

The slot for a new one, and the one that is taken out by its id. -/

/-- A new notification takes one slot, or a place behind the others. -/
theorem newNotification_mem (h : newNotification notifications type limitNum = some (notifications', idx))
    (hm : m ∈ notifications'.set idx n) : m = n ∨ m ∈ notifications := by
  unfold newNotification at h
  dsimp only at h
  split at h
  · split at h
    · split at h
      · -- a new slot at the end
        cases h
        rw [List.set_append_right _ _ (Nat.le_refl _), Nat.sub_self] at hm
        rcases List.mem_append.mp hm with hm | hm
        · exact Or.inr hm
        · exact Or.inl (List.mem_singleton.mp hm)
      · cases h
        exact (List.mem_or_eq_of_mem_set hm).symm
    · -- the earliest one is overwritten
      obtain ⟨idx', -, heq⟩ := Option.map_eq_some_iff.mp h
      cases heq
      rw [List.set_set] at hm
      exact (List.mem_or_eq_of_mem_set hm).symm
  · cases h

/-- What `notify` writes. -/
theorem notify_spec (h : notify info type limitNum uin now goods = some info') :
    ∃ notifications n, info' = { info with
        notifications := notifications
        lastNotificationId := info.lastNotificationId + 1 } ∧
      n ∈ notifications ∧ (∀ m ∈ notifications, m = n ∨ m ∈ info.notifications) ∧
      n.uin = uin ∧ n.id = info.lastNotificationId ∧ n.createTime = UInt32.ofNat now ∧
      ∃ old, goods old = some n.goodsList := by
  unfold notify at h
  obtain ⟨⟨notifications, idx⟩, hnew, h⟩ := Option.bind_eq_some_iff.mp h
  obtain ⟨old, hold, h⟩ := Option.bind_eq_some_iff.mp h
  obtain ⟨goodsList, hgoods, h⟩ := Option.bind_eq_some_iff.mp h
  cases h
  have hidx := (List.getElem?_eq_some_iff.mp hold).1
  refine ⟨_, _, rfl, List.mem_set hidx _, ?_, rfl, rfl, rfl, old.goodsList, hgoods⟩
  intro m hm
  exact newNotification_mem hnew hm

/-- The first one with the id is found, and its slot is cleared. -/
theorem find_spec (h : findNotificationAndRemove notifications id = some (n, notifications')) :
    ∃ idx, ∃ hidx : idx < notifications.length, notifications[idx] = n ∧ n.id = id ∧
      (∀ j (hj : j < idx), notifications[j].id ≠ id) ∧ notifications' = notifications.set idx { type := .nil } := by
  unfold findNotificationAndRemove at h
  cases hfind : notifications.findIdx? (fun n => n.id = id) with
  | none =>
      rw [hfind] at h
      cases h
  | some idx =>
      rw [hfind] at h
      obtain ⟨m, hm, heq⟩ := Option.map_eq_some_iff.mp h
      cases heq
      obtain ⟨hidx, hid, hfirst⟩ := List.findIdx?_eq_some_iff_getElem.mp hfind
      obtain ⟨_, hget⟩ := List.getElem?_eq_some_iff.mp hm
      refine ⟨idx, hidx, hget, ?_, ?_, rfl⟩
      · rw [← hget]
        exact of_decide_eq_true hid
      · intro j hj heq
        exact hfirst j hj (decide_eq_true heq)

/-! ## What a call writes

`exec_inv` goes through the four calls once. After it a call is known by what it refused for, or by its effect. -/

/-- Two infos are written back, the second one last. -/
def updateTwo (infos : InfoMap) (self recipient : ExchangeGiftsInfo) : InfoMap :=
  updateExchangeGiftsInfo (updateExchangeGiftsInfo infos self) recipient

/-- What a call that returns 0 has done. -/
inductive Effect (g : ExchangeGifts) (now : Nat) (infos : InfoMap) : Call → InfoMap → Prop
  | ask {a b : UInt32} {gifts : List GoodsInfo} {recipient : ExchangeGiftsInfo} (hgifts : g.lowerBound 35 = some gifts)
      (hnotify : notify (getExchangeGiftsInfo infos b) .requestGift g.maxRequestGiftNotificationNum a now (copyGiftInfo gifts) =
        some recipient) :
      Effect g now infos (.askForGifts a b) (updateTwo infos
        { getExchangeGiftsInfo infos a with requestRecords := (getExchangeGiftsInfo infos a).requestRecords ++ [⟨b⟩] } recipient)
  | send {a b : UInt32} {gifts : List GoodsInfo} {recipient : ExchangeGiftsInfo} (hgifts : g.lowerBound 35 = some gifts)
      (hnotify : notify (getExchangeGiftsInfo infos b) .receiveGift g.maxReceiveGiftNotificationNum a now (copyGiftInfo gifts) =
        some recipient) :
      Effect g now infos (.sendGifts a b) (updateTwo infos
        { getExchangeGiftsInfo infos a with sendRecords := (getExchangeGiftsInfo infos a).sendRecords ++ [⟨b, .selfActive⟩] }
        { recipient with unprocessedMessageCount := recipient.unprocessedMessageCount + 1 })
  | reply {a id : UInt32} {n : Notification} {notifications : List Notification} {recipient : ExchangeGiftsInfo}
      (hfind : findNotificationAndRemove (getExchangeGiftsInfo infos a).notifications id = some (n, notifications))
      (hnotify : notify (getExchangeGiftsInfo infos n.uin) .receiveGift g.maxReceiveGiftNotificationNum a now
        (fun _ => some n.goodsList) = some recipient) :
      Effect g now infos (.replyGiftRequest a id) (updateTwo infos
        { getExchangeGiftsInfo infos a with
          notifications := notifications
          sendRecords := (getExchangeGiftsInfo infos a).sendRecords ++ [⟨n.uin, .responseRequest⟩] }
        { recipient with unprocessedMessageCount := recipient.unprocessedMessageCount + 1 })
  | receive {a id : UInt32} {n : Notification} {notifications : List Notification}
      (hfind : findNotificationAndRemove (getExchangeGiftsInfo infos a).notifications id = some (n, notifications)) :
      Effect g now infos (.receiveGift a id) (updateExchangeGiftsInfo infos
        { getExchangeGiftsInfo infos a with
          notifications := notifications
          receiveRecords := (getExchangeGiftsInfo infos a).receiveRecords ++ [⟨n.uin⟩] })

/-- The first notification of `a` with that id. -/
def firstNotification (infos : InfoMap) (a id : UInt32) : Option Notification :=
  (findNotificationAndRemove (getExchangeGiftsInfo infos a).notifications id).map Prod.fst

/-- Why a call is refused. -/
def Refused (g : ExchangeGifts) (infos : InfoMap) : Call → Prop
  | .askForGifts a b =>
      (getExchangeGiftsInfo infos a).requestRecords.length > g.maxDayRequestNum ∨
        reachRequestToSameUinLimit (getExchangeGiftsInfo infos a).requestRecords b g.maxDayRequestNumToSameOne ∨
        (getExchangeGiftsInfo infos b).sendRecords.length > g.maxDaySendNum ∨
        reachSendToSameUinLimit (getExchangeGiftsInfo infos a).sendRecords b g.maxDaySendNumToSameOne
  | .sendGifts a b =>
      (getExchangeGiftsInfo infos a).sendRecords.length > g.maxDaySendNum ∨
        reachSendToSameUinLimit (getExchangeGiftsInfo infos a).sendRecords b g.maxDaySendNumToSameOne
  | .replyGiftRequest a id =>
      (getExchangeGiftsInfo infos a).sendRecords.length > g.maxDaySendNum ∨ firstNotification infos a id = none ∨
        ∃ n, reachSendToSameUinLimit (getExchangeGiftsInfo infos a).sendRecords n g.maxDaySendNumToSameOne
  | .receiveGift a id =>
      firstNotification infos a id = none ∨
        (getExchangeGiftsInfo infos a).receiveRecords.length > g.maxDayReceiveNum ∨
        ∃ n, reachReceiveFromSameUinLimit (getExchangeGiftsInfo infos a).receiveRecords n g.maxDayReceiveNumFromSameOne

/-- The first notification with the id, when there is none, -/
theorem firstNotification_of_none (h : findNotificationAndRemove (getExchangeGiftsInfo infos a).notifications id = none) :
    firstNotification infos a id = none := by
  unfold firstNotification
  rw [h]
  rfl

/-- and when there is one. -/
theorem firstNotification_of_some
    (h : findNotificationAndRemove (getExchangeGiftsInfo infos a).notifications id = some (n, notifications)) :
    firstNotification infos a id = some n := by
  unfold firstNotification
  rw [h]
  rfl

/-- **A call is refused and changes nothing, or returns 0 and has its effect.** -/
theorem exec_inv (h : call.exec g infos now = some (ret, infos')) :
    (ret ≠ 0 ∧ infos' = infos ∧ Refused g infos call) ∨ (ret = 0 ∧ Effect g now infos call infos') := by
  have hrefuse : ∀ {code : Int}, code ≠ 0 → some (code, infos) = some (ret, infos') → Refused g infos call →
      ret ≠ 0 ∧ infos' = infos ∧ Refused g infos call := by
    intro code hcode heq hwhy
    cases heq
    exact ⟨hcode, rfl, hwhy⟩
  cases call with
  | askForGifts a b =>
      unfold Call.exec askForGifts at h
      dsimp only at h
      split at h
      · rename_i hwhy
        exact Or.inl (hrefuse (by decide) h (Or.inl hwhy))
      split at h
      · rename_i hwhy
        exact Or.inl (hrefuse (by decide) h (Or.inr (Or.inl hwhy)))
      split at h
      · rename_i hwhy
        exact Or.inl (hrefuse (by decide) h (Or.inr (Or.inr (Or.inl hwhy))))
      split at h
      · rename_i hwhy
        exact Or.inl (hrefuse (by decide) h (Or.inr (Or.inr (Or.inr hwhy))))
      obtain ⟨gifts, hgifts, h⟩ := Option.bind_eq_some_iff.mp h
      obtain ⟨recipient, hnotify, h⟩ := Option.bind_eq_some_iff.mp h
      cases h
      exact Or.inr ⟨rfl, Effect.ask hgifts hnotify⟩
  | sendGifts a b =>
      unfold Call.exec sendGifts at h
      dsimp only at h
      split at h
      · rename_i hwhy
        exact Or.inl (hrefuse (by decide) h (Or.inl hwhy))
      split at h
      · rename_i hwhy
        exact Or.inl (hrefuse (by decide) h (Or.inr hwhy))
      obtain ⟨gifts, hgifts, h⟩ := Option.bind_eq_some_iff.mp h
      obtain ⟨recipient, hnotify, h⟩ := Option.bind_eq_some_iff.mp h
      cases h
      exact Or.inr ⟨rfl, Effect.send hgifts hnotify⟩
  -- a request is looked for, and refused when it is none
  | replyGiftRequest a id =>
      unfold Call.exec replyGiftRequest at h
      dsimp only at h
      split at h
      · rename_i hwhy
        exact Or.inl (hrefuse (by decide) h (Or.inl hwhy))
      split at h
      · rename_i hfind
        exact Or.inl (hrefuse (by decide) h (Or.inr (Or.inl (firstNotification_of_none hfind))))
      · rename_i n notifications hfind
        split at h
        · rename_i hwhy
          exact Or.inl (hrefuse (by decide) h (Or.inr (Or.inr ⟨_, hwhy⟩)))
        obtain ⟨recipient, hnotify, h⟩ := Option.bind_eq_some_iff.mp h
        cases h
        exact Or.inr ⟨rfl, Effect.reply hfind hnotify⟩
  | receiveGift a id =>
      unfold Call.exec receiveGift at h
      dsimp only at h
      split at h
      · rename_i hfind
        exact Or.inl (hrefuse (by decide) h (Or.inl (firstNotification_of_none hfind)))
      · rename_i n notifications hfind
        split at h
        · rename_i hwhy
          exact Or.inl (hrefuse (by decide) h (Or.inr (Or.inl hwhy)))
        split at h
        · rename_i hwhy
          exact Or.inl (hrefuse (by decide) h (Or.inr (Or.inr ⟨_, hwhy⟩)))
        cases h
        exact Or.inr ⟨rfl, Effect.receive hfind⟩

/-! ## Filing

Entries are filed under the `uin` they carry. -/

/-- Every entry is filed under its own uin. -/
def Filed (infos : InfoMap) : Prop := ∀ uin info, infos uin = some info → info.uin = uin

/-- An entry is found under its own user, -/
theorem update_same (infos : InfoMap) (info : ExchangeGiftsInfo) : updateExchangeGiftsInfo infos info info.uin = some info :=
  Function.update_self _ _ _

/-- also by the getter, -/
theorem get_update (h : info.uin = u) : getExchangeGiftsInfo (updateExchangeGiftsInfo infos info) u = info := by
  subst h
  unfold getExchangeGiftsInfo
  rw [update_same]
  rfl

/-- and every other user keeps theirs. -/
theorem update_other (h : u ≠ info.uin) : updateExchangeGiftsInfo infos info u = infos u := Function.update_of_ne h _ _

/-- Filing keeps a store filed right. -/
theorem Filed.update (h : Filed infos) (info : ExchangeGiftsInfo) : Filed (updateExchangeGiftsInfo infos info) := by
  intro u found hfound
  by_cases hu : u = info.uin
  · subst hu
    rw [update_same] at hfound
    cases hfound
    rfl
  · rw [update_other hu] at hfound
    exact h u found hfound

/-- The info of a user who has one carries that uin, and the default info carries 0. -/
theorem Filed.uin_eq (h : Filed infos) (u : UInt32) :
    (getExchangeGiftsInfo infos u).uin = u ∨ (infos u = none ∧ u ≠ 0 ∧ (getExchangeGiftsInfo infos u).uin = 0) := by
  unfold getExchangeGiftsInfo
  cases hu : infos u with
  | some info => exact Or.inl (h u info hu)
  | none =>
      by_cases hzero : u = 0
      · exact Or.inl hzero.symm
      · exact Or.inr ⟨rfl, hzero, rfl⟩

/-- Of two entries the second is there for certain, -/
theorem get_updateTwo_second (infos : InfoMap) (self recipient : ExchangeGiftsInfo) :
    getExchangeGiftsInfo (updateTwo infos self recipient) recipient.uin = recipient :=
  get_update rfl

/-- the first unless both are of one user, -/
theorem get_updateTwo_first (h : self.uin ≠ recipient.uin) :
    getExchangeGiftsInfo (updateTwo infos self recipient) self.uin = self := by
  unfold getExchangeGiftsInfo updateTwo
  rw [update_other h, update_same]
  rfl

/-- and other users keep theirs. -/
theorem updateTwo_other (h : u ≠ self.uin) (h' : u ≠ recipient.uin) : updateTwo infos self recipient u = infos u := by
  unfold updateTwo
  rw [update_other h', update_other h]

/-! ## The property -/

/-- The user `b` has a notification from `a`, under the id that was next. -/
def Notified (infos infos' : InfoMap) (now : Nat) (a b : UInt32) (goods : List GoodsInfo) : Prop :=
  ∃ n ∈ (getExchangeGiftsInfo infos' b).notifications, n.uin = a ∧ n.id = (getExchangeGiftsInfo infos b).lastNotificationId ∧
    n.createTime = UInt32.ofNat now ∧ n.goodsList = goods

/-- The users that a call names. -/
def Call.users (infos : InfoMap) : Call → List UInt32
  | .askForGifts a b | .sendGifts a b => [a, b]
  | .replyGiftRequest a id => a :: ((firstNotification infos a id).map Notification.uin).toList
  | .receiveGift a _ => [a]

/-- The new record is found with the user who made the call, and the new notification with the other one. -/
def Recorded (g : ExchangeGifts) (now : Nat) (infos infos' : InfoMap) : Call → Prop
  | .askForGifts a b =>
      (getExchangeGiftsInfo infos' a).requestRecords = (getExchangeGiftsInfo infos a).requestRecords ++ [⟨b⟩] ∧
        ∃ gifts, g.lowerBound 35 = some gifts ∧ Notified infos infos' now a b gifts
  | .sendGifts a b =>
      (getExchangeGiftsInfo infos' a).sendRecords = (getExchangeGiftsInfo infos a).sendRecords ++ [⟨b, .selfActive⟩] ∧
        ∃ gifts, g.lowerBound 35 = some gifts ∧ Notified infos infos' now a b gifts
  | .replyGiftRequest a id =>
      ∃ n, firstNotification infos a id = some n ∧
        (getExchangeGiftsInfo infos' a).sendRecords = (getExchangeGiftsInfo infos a).sendRecords ++ [⟨n.uin, .responseRequest⟩] ∧
        Notified infos infos' now a n.uin n.goodsList
  | .receiveGift a id =>
      ∃ n, firstNotification infos a id = some n ∧
        (getExchangeGiftsInfo infos' a).receiveRecords = (getExchangeGiftsInfo infos a).receiveRecords ++ [⟨n.uin⟩]

/-- Everything is with the right users after a call. -/
structure FiledRight (g : ExchangeGifts) (now : Nat) (infos : InfoMap) (call : Call) (infos' : InfoMap) : Prop where
  recorded : Recorded g now infos infos' call
  filed : Filed infos'
  others : ∀ u, u ∉ call.users infos → infos' u = infos u

/-- Two different users, each with an entry, or the user 0. -/
def Apart (infos : InfoMap) (a b : UInt32) : Prop :=
  a ≠ b ∧ (a = 0 ∨ (infos a).isSome) ∧ (b = 0 ∨ (infos b).isSome)

/-- The users that a call names are apart. -/
def UsersApart (infos : InfoMap) : Call → Prop
  | .askForGifts a b | .sendGifts a b => Apart infos a b
  | .replyGiftRequest a id => ∀ n, firstNotification infos a id = some n → Apart infos a n.uin
  | .receiveGift _ _ => True

/-! ## When it holds

The two infos have to be of different users, and each of a user who has an entry. -/

/-- A user who has an entry is named in it, -/
theorem uin_eq_of_known (h : Filed infos) (hu : u = 0 ∨ (infos u).isSome) : (getExchangeGiftsInfo infos u).uin = u := by
  rcases h.uin_eq u with heq | ⟨hnone, hzero, -⟩
  · exact heq
  · rw [hnone] at hu
    rcases hu with hu | hu
    · exact absurd hu hzero
    · cases hu

/-- and a user who is not named has none. -/
theorem known_of_uin_eq (h : (getExchangeGiftsInfo infos u).uin = u) : u = 0 ∨ (infos u).isSome := by
  unfold getExchangeGiftsInfo at h
  cases hu : infos u with
  | some info => exact Or.inr rfl
  | none =>
      rw [hu] at h
      exact Or.inl h.symm

/-- The two updates of a call: what is new of the first (`field`) and of the second (`P`) is found exactly when the users are
    apart. -/
theorem updateTwo_found {β : Type} {x : β} {P : ExchangeGiftsInfo → Prop} (field : ExchangeGiftsInfo → List β)
    (self recipient : ExchangeGiftsInfo) (h : Filed infos)
    (hself : self.uin = (getExchangeGiftsInfo infos a).uin) (hrecipient : recipient.uin = (getExchangeGiftsInfo infos b).uin)
    (hnew : field self = field (getExchangeGiftsInfo infos a) ++ [x])
    (hold : field recipient = field (getExchangeGiftsInfo infos b)) (hempty : field {} = [])
    (hP : P recipient) (hdefault : ¬ P {}) :
    (field (getExchangeGiftsInfo (updateTwo infos self recipient) a) = field (getExchangeGiftsInfo infos a) ++ [x] ∧
      P (getExchangeGiftsInfo (updateTwo infos self recipient) b)) ↔ Apart infos a b := by
  have hgrown : ∀ {xs : List β}, xs ≠ xs ++ [x] := by
    intro xs heq
    have hlen := congrArg List.length heq
    rw [List.length_append, List.length_singleton] at hlen
    omega
  -- what is found afterwards says that neither was the default one
  constructor
  · rintro ⟨hfield, hfound⟩
    -- an info that is not stored is the default one afterwards, too
    have hmissing : ∀ u, infos u = none → u ≠ self.uin → u ≠ recipient.uin →
        getExchangeGiftsInfo (updateTwo infos self recipient) u = {} := by
      intro u hu h₁ h₂
      unfold getExchangeGiftsInfo
      rw [updateTwo_other h₁ h₂, hu]
      rfl
    by_cases hab : a = b
    · subst hab
      exfalso
      rcases h.uin_eq a with heq | ⟨hnone, hzero, hdef⟩
      · have hsecond := get_updateTwo_second infos self recipient
        rw [hrecipient, heq] at hsecond
        rw [hsecond, hold] at hfield
        exact hgrown hfield
      · rw [hmissing a hnone (by rw [hself, hdef]; exact hzero) (by rw [hrecipient, hdef]; exact hzero)] at hfound
        exact hdefault hfound
    · refine ⟨hab, ?_, ?_⟩
      · apply known_of_uin_eq
        rcases h.uin_eq a with heq | ⟨hnone, hzero, hdef⟩
        · exact heq
        · exfalso
          have hb : a ≠ recipient.uin := by
            rw [hrecipient]
            rcases h.uin_eq b with hb | ⟨-, -, hb⟩
            · rw [hb]
              exact hab
            · rw [hb]
              exact hzero
          rw [hmissing a hnone (by rw [hself, hdef]; exact hzero) hb, hempty] at hfield
          exact absurd hfield (by simp)
      · apply known_of_uin_eq
        rcases h.uin_eq b with heq | ⟨hnone, hzero, hdef⟩
        · exact heq
        · exfalso
          have ha : b ≠ self.uin := by
            rw [hself]
            rcases h.uin_eq a with ha | ⟨-, -, ha⟩
            · rw [ha]
              exact Ne.symm hab
            · rw [ha]
              exact hzero
          rw [hmissing b hnone ha (by rw [hrecipient, hdef]; exact hzero)] at hfound
          exact hdefault hfound
  · rintro ⟨hab, ha, hb⟩
    have ha' := uin_eq_of_known h ha
    have hb' := uin_eq_of_known h hb
    rw [ha'] at hself
    rw [hb'] at hrecipient
    constructor
    · have hfirst := @get_updateTwo_first infos self recipient (by rw [hself, hrecipient]; exact hab)
      rw [hself] at hfirst
      rw [hfirst, hnew]
    · have hsecond := get_updateTwo_second infos self recipient
      rw [hrecipient] at hsecond
      rw [hsecond]
      exact hP

/-- Both are filed under the users they name, -/
theorem filed_updateTwo (h : Filed infos) (self recipient : ExchangeGiftsInfo) : Filed (updateTwo infos self recipient) :=
  (h.update self).update recipient

/-- and nobody else is touched. -/
theorem others_updateTwo (h : Filed infos) (happart : Apart infos a b) (hself : self.uin = (getExchangeGiftsInfo infos a).uin)
    (hrecipient : recipient.uin = (getExchangeGiftsInfo infos b).uin) (ha : u ≠ a) (hb : u ≠ b) :
    updateTwo infos self recipient u = infos u := by
  apply updateTwo_other
  · rw [hself, uin_eq_of_known h happart.2.1]
    exact ha
  · rw [hrecipient, uin_eq_of_known h happart.2.2]
    exact hb

/-- What `notify` leaves alone. -/
theorem notify_uin (h : notify info type limitNum uin now goods = some info') :
    info'.uin = info.uin ∧ info'.sendRecords = info.sendRecords ∧ info'.requestRecords = info.requestRecords ∧
      info'.receiveRecords = info.receiveRecords := by
  obtain ⟨notifications, n, rfl, -⟩ := notify_spec h
  exact ⟨rfl, rfl, rfl, rfl⟩

/-- A copy is the list itself. -/
theorem copyGiftInfo_inv {gifts old new : List GoodsInfo} (h : copyGiftInfo gifts old = some new) : new = gifts := by
  unfold copyGiftInfo at h
  split at h
  · exact (Option.some.inj h).symm
  · cases h

/-- A notification as `notify` writes it, among those of an info. -/
def Found (uin id : UInt32) (now : Nat) (goods : List GoodsInfo) (info : ExchangeGiftsInfo) : Prop :=
  ∃ n ∈ info.notifications, n.uin = uin ∧ n.id = id ∧ n.createTime = UInt32.ofNat now ∧ n.goodsList = goods

/-- The default entry has no notification, -/
theorem not_found_default {goods : List GoodsInfo} : ¬ Found uin id now goods {} := by
  rintro ⟨n, hn, -⟩
  exact absurd hn List.not_mem_nil

/-- and one that was notified has it. -/
theorem found_of_notify {gifts : List GoodsInfo} (hgoods : ∀ old new, goods old = some new → new = gifts)
    (h : notify info type limitNum uin now goods = some info') : Found uin info.lastNotificationId now gifts info' := by
  obtain ⟨notifications, n, rfl, hn, -, huin, hid, htime, old, hold⟩ := notify_spec h
  exact ⟨n, hn, huin, hid, htime, hgoods _ _ hold⟩

/-- Two updates leave the rest of the infos as they were, so only the record and the notification are in question. -/
theorem filedRight_updateTwo (h : Filed infos) (hself : self.uin = (getExchangeGiftsInfo infos a).uin)
    (hrecipient : recipient.uin = (getExchangeGiftsInfo infos b).uin) (husers : call.users infos = [a, b])
    (hrecorded : Recorded g now infos (updateTwo infos self recipient) call ↔ Apart infos a b) :
    FiledRight g now infos call (updateTwo infos self recipient) ↔ Apart infos a b := by
  constructor
  · intro hright
    exact hrecorded.mp hright.recorded
  · intro happart
    refine ⟨hrecorded.mpr happart, filed_updateTwo h _ _, ?_⟩
    intro u hu
    rw [husers] at hu
    simp only [List.mem_cons, List.not_mem_nil, or_false, not_or] at hu
    exact others_updateTwo h happart hself hrecipient hu.1 hu.2

theorem effect_filedRight (h : Filed infos) (he : Effect g now infos call infos') :
    FiledRight g now infos call infos' ↔ UsersApart infos call := by
  cases he with
  | @ask a b gifts recipient hgifts hnotify =>
      obtain ⟨huin, -, hrecords, -⟩ := notify_uin hnotify
      have hfound := found_of_notify (fun _ _ hc => copyGiftInfo_inv hc) hnotify
      have hiff := updateTwo_found ExchangeGiftsInfo.requestRecords { getExchangeGiftsInfo infos a with
          requestRecords := (getExchangeGiftsInfo infos a).requestRecords ++ [⟨b⟩] }
        recipient h rfl huin rfl hrecords rfl hfound not_found_default
      refine filedRight_updateTwo h rfl huin rfl (Iff.trans (and_congr_right fun _ => ?_) hiff)
      simp only [hgifts, Option.some.injEq, exists_eq_left']
      exact Iff.rfl
  | @send a b gifts recipient hgifts hnotify =>
      obtain ⟨huin, hrecords, -, -⟩ := notify_uin hnotify
      have hfound := found_of_notify (fun _ _ hc => copyGiftInfo_inv hc) hnotify
      have hiff := updateTwo_found ExchangeGiftsInfo.sendRecords { getExchangeGiftsInfo infos a with
          sendRecords := (getExchangeGiftsInfo infos a).sendRecords ++ [⟨b, .selfActive⟩] }
        { recipient with unprocessedMessageCount := recipient.unprocessedMessageCount + 1 }
        h rfl huin rfl hrecords rfl hfound not_found_default
      refine filedRight_updateTwo h rfl huin rfl (Iff.trans (and_congr_right fun _ => ?_) hiff)
      simp only [hgifts, Option.some.injEq, exists_eq_left']
      exact Iff.rfl
  | @reply a id n notifications recipient hfind hnotify =>
      have hfirst := firstNotification_of_some hfind
      obtain ⟨huin, hrecords, -, -⟩ := notify_uin hnotify
      have hfound := found_of_notify (fun _ _ hc => (Option.some.inj hc).symm) hnotify
      have hiff := updateTwo_found ExchangeGiftsInfo.sendRecords { getExchangeGiftsInfo infos a with
          notifications := notifications
          sendRecords := (getExchangeGiftsInfo infos a).sendRecords ++ [⟨n.uin, .responseRequest⟩] }
        { recipient with unprocessedMessageCount := recipient.unprocessedMessageCount + 1 }
        h rfl huin rfl hrecords rfl hfound not_found_default
      have husers : Call.users infos (.replyGiftRequest a id) = [a, n.uin] := by
        simp only [Call.users, hfirst, Option.map_some, Option.toList_some]
      have happart : UsersApart infos (.replyGiftRequest a id) ↔ Apart infos a n.uin := by
        simp only [UsersApart, hfirst, Option.some.injEq, forall_eq']
      rw [happart]
      refine filedRight_updateTwo h rfl huin husers (Iff.trans ?_ hiff)
      simp only [Recorded, hfirst, Option.some.injEq, exists_eq_left']
      exact Iff.rfl
  | @receive a id n notifications hfind =>
      have hfirst := firstNotification_of_some hfind
      refine ⟨fun _ => trivial, fun _ => ?_⟩
      -- there was a notification, so there is an entry
      have huin : (getExchangeGiftsInfo infos a).uin = a := by
        rcases h.uin_eq a with heq | ⟨hnone, -, -⟩
        · exact heq
        · obtain ⟨idx, hidx, -⟩ := find_spec hfind
          unfold getExchangeGiftsInfo at hidx
          rw [hnone] at hidx
          exact absurd hidx (Nat.not_lt_zero _)
      refine ⟨⟨n, hfirst, ?_⟩, h.update _, ?_⟩
      · have hget : ∀ info : ExchangeGiftsInfo, info.uin = (getExchangeGiftsInfo infos a).uin →
            getExchangeGiftsInfo (updateExchangeGiftsInfo infos info) a = info :=
          fun _ heq => get_update (heq.trans huin)
        refine (congrArg ExchangeGiftsInfo.receiveRecords (hget _ ?_)).trans ?_
        · rfl
        · rfl
      · intro u hu
        apply update_other
        rw [huin]
        exact fun heq => hu (by rw [heq]; exact List.mem_cons_self)

/-- **Each user's data stays under that user** exactly when the users that a successful call names are two, and both have an
    entry already or are the user 0. -/
theorem filedRight_iff (h : Filed infos) (hexec : call.exec g infos now = some (0, infos')) :
    FiledRight g now infos call infos' ↔ UsersApart infos call := by
  rcases exec_inv hexec with ⟨hret, -⟩ | ⟨-, he⟩
  · exact absurd rfl hret
  · exact effect_filedRight h he

/-- One gift for every level. -/
def oneGift : ExchangeGifts := new [(40, [⟨3005, 1⟩])]

/-- The users 1 and 2 have entries. -/
def twoUsers : InfoMap := fun u => if u = 1 ∨ u = 2 then some { uin := u } else none

/-- The two users of the example are filed. -/
theorem filed_twoUsers : Filed twoUsers := by
  intro u info hu
  unfold twoUsers at hu
  split at hu
  · cases hu
    rfl
  · cases hu

/-- The user 1 sends gifts to the user 2. -/
theorem filedRight_send : ∃ infos', (Call.sendGifts 1 2).exec oneGift twoUsers 7 = some (0, infos') ∧
    FiledRight oneGift 7 twoUsers (.sendGifts 1 2) infos' :=
  ⟨_, rfl, (filedRight_iff filed_twoUsers rfl).mpr (by unfold UsersApart Apart; decide)⟩

/-- The user 3 has no entry: the record is filed under 0. -/
theorem not_filedRight_new : ∃ infos', (Call.sendGifts 3 2).exec oneGift twoUsers 7 = some (0, infos') ∧
    getExchangeGiftsInfo infos' 3 = {} ∧ (getExchangeGiftsInfo infos' 0).sendRecords = [⟨2, .selfActive⟩] ∧
    ¬ FiledRight oneGift 7 twoUsers (.sendGifts 3 2) infos' := by
  refine ⟨_, rfl, by decide, by decide, ?_⟩
  rintro ⟨⟨hfield, -⟩, -, -⟩
  revert hfield
  decide

end ExchangeGifts
end Snippets
