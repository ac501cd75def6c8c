import Mathlib.Algebra.Group.Nat.Defs
import Mathlib.Data.List.DropRight
import Mathlib.Logic.Function.Basic
import Snippets.Lib.Run

/-!
# `ExchangeGifts.Model` — `test-protobuf-reflection`

Users ask each other for gifts and send them. Each call copies the infos it needs out of the store, edits the copies, and writes
them back; the store files an info under the `uin` that is in it. A call has the value that it returns and the store that it
leaves, or no result when an assertion fails.

The messages of `exchange_gifts_info.proto` are structures with the defaults of protobuf: the default of an enumeration is its
first value. Reading an info that is not there gives the default one, so reading and writing never fail and the branches for
that are left out. The time of a call is an argument.
-/

namespace Snippets
namespace ExchangeGifts

/-! ## Messages -/

inductive SendRecordType
  | selfActive
  | responseRequest
deriving DecidableEq

inductive NotificationType
  | requestGift
  | receiveGift
  /-- for lazy deletion -/
  | nil
deriving DecidableEq

structure GoodsInfo where
  id : UInt32
  count : UInt32
deriving DecidableEq

structure SendRecord where
  uin : UInt32
  type : SendRecordType
deriving DecidableEq

structure ReceiveRecord where
  uin : UInt32
deriving DecidableEq

structure RequestRecord where
  uin : UInt32
deriving DecidableEq

structure Notification where
  uin : UInt32 := 0
  id : UInt32 := 0
  type : NotificationType := .requestGift
  createTime : UInt32 := 0
  goodsList : List GoodsInfo := []
deriving DecidableEq

structure ExchangeGiftsInfo where
  sendRecords : List SendRecord := []
  receiveRecords : List ReceiveRecord := []
  requestRecords : List RequestRecord := []
  notifications : List Notification := []
  uin : UInt32 := 0
  lastLoginTime : UInt32 := 0
  lastNotificationId : UInt32 := 0
  unprocessedMessageCount : UInt32 := 0
deriving DecidableEq

/-! ## The store -/

/-- `infos_` of `ExchangeGiftsInfoMgr`. -/
abbrev InfoMap := UInt32 → Option ExchangeGiftsInfo

/-- `GetExchangeGiftsInfo`. -/
def getExchangeGiftsInfo (infos : InfoMap) (uin : UInt32) : ExchangeGiftsInfo := (infos uin).getD {}

/-- `UpdateExchangeGiftsInfo`. -/
def updateExchangeGiftsInfo (infos : InfoMap) (info : ExchangeGiftsInfo) : InfoMap := Function.update infos info.uin (some info)

/-! ## Notifications -/

/-- What the loop of `NewNotification` has found. -/
structure Scan where
  time : Nat
  num : Nat
  earliest : Option Nat
  empty : Option Nat

/-- The loop of `NewNotification`, from index `idx` on. -/
def scanNotifications (type : NotificationType) : Nat → List Notification → Scan → Scan
  | _, [], s => s
  | idx, n :: rest, s =>
      let s :=
        if n.type = type then
          let s := { s with num := s.num + 1 }
          if n.createTime.toNat < s.time then { s with time := n.createTime.toNat, earliest := some idx } else s
        else if n.type = .nil then { s with empty := some idx }
        else s
      scanNotifications type (idx + 1) rest s

/-- `NewNotification`: the list, and the index of the notification that is to be written. -/
def newNotification (notifications : List Notification) (type : NotificationType) (limitNum : Nat) :
    Option (List Notification × Nat) :=
  if 0 < limitNum ∧ type ≠ .nil then
    -- the greatest `time_t`
    let s := scanNotifications type 0 notifications ⟨2 ^ 63 - 1, 0, none, none⟩
    if s.num < limitNum then
      match s.empty with
      | none => some (notifications ++ [{}], notifications.length)
      | some idx => some (notifications, idx)
    else s.earliest.map fun idx => (notifications.set idx { type := type }, idx)
  else none

/-- `FindNotificationAndRemove`: the copy, and the list with a cleared slot. -/
def findNotificationAndRemove (notifications : List Notification) (id : UInt32) : Option (Notification × List Notification) :=
  match notifications.findIdx? (fun n => n.id = id) with
  | none => none
  | some idx => notifications[idx]?.map fun n => (n, notifications.set idx { type := .nil })

/-- `CopyGiftInfo`, into the goods of a notification. -/
def copyGiftInfo (giftsTemplate goodsList : List GoodsInfo) : Option (List GoodsInfo) :=
  if goodsList.length = 0 then some giftsTemplate else none

/-- `NotificationNotExpired`. -/
def notificationNotExpired (ttl now : Nat) (n : Notification) : Bool := (now : Int) - n.createTime.toNat < ttl

/-- `std::partition`, up to the iterator that it returns: each element that fails is replaced by the last one that does not. -/
def partition {α : Type} (keep : α → Bool) : Nat → List α → List α
  | 0, _ | _, [] => []
  | fuel + 1, x :: xs =>
      if keep x then x :: partition keep fuel xs
      else
        let xs := xs.rdropWhile fun y => !keep y
        match xs.getLast? with
        | none => []
        | some y => y :: partition keep fuel xs.dropLast

/-- `RemoveExpiredNotifications`. -/
def removeExpiredNotifications (notifications : List Notification) (ttl now : Nat) : List Notification :=
  partition (notificationNotExpired ttl now) notifications.length notifications

/-! ## Limits -/

/-- The loop of `ReachToSameUinLimit`. -/
def reachLoop {T : Type} (uinOf : T → UInt32) (uin : UInt32) (limitNum : Nat) : List T → Nat → Bool
  | [], _ => false
  | record :: records, num =>
      let num := if uinOf record = uin then num + 1 else num
      if num > limitNum then true else reachLoop uinOf uin limitNum records num

/-- `ReachToSameUinLimit`. -/
def reachToSameUinLimit {T : Type} (uinOf : T → UInt32) (records : List T) (uin : UInt32) (limitNum : Nat) : Bool :=
  reachLoop uinOf uin limitNum records 0

def reachReceiveFromSameUinLimit : List ReceiveRecord → UInt32 → Nat → Bool := reachToSameUinLimit ReceiveRecord.uin

def reachSendToSameUinLimit : List SendRecord → UInt32 → Nat → Bool := reachToSameUinLimit SendRecord.uin

def reachRequestToSameUinLimit : List RequestRecord → UInt32 → Nat → Bool := reachToSameUinLimit RequestRecord.uin

end ExchangeGifts

/-! ## The class -/

/-- The members of `ExchangeGifts`; `gifts` is a map, in the order of the levels. -/
structure ExchangeGifts where
  maxDayRequestNum : Nat
  maxDayRequestNumToSameOne : Nat
  maxDaySendNum : Nat
  maxDaySendNumToSameOne : Nat
  maxDayReceiveNum : Nat
  maxDayReceiveNumFromSameOne : Nat
  maxRequestGiftNotificationNum : Nat
  maxReceiveGiftNotificationNum : Nat
  notificationTtl : Nat
  gifts : List (Nat × List ExchangeGifts.GoodsInfo)

namespace ExchangeGifts

/-- The constructor, with gifts that are configured. -/
def new (gifts : List (Nat × List GoodsInfo)) : ExchangeGifts := ⟨30, 1, 5, 1, 5, 1, 10, 15, 5 * 3600 * 24, gifts⟩

/-- `gifts_.lower_bound(level)`. -/
def lowerBound (g : ExchangeGifts) (level : Nat) : Option (List GoodsInfo) :=
  (g.gifts.find? fun entry => level ≤ entry.1).map Prod.snd

/-- What every call does to the info of the recipient: `NewNotification`, which gets the sender, the next id, the time and the
    goods. -/
def notify (info : ExchangeGiftsInfo) (type : NotificationType) (limitNum : Nat) (uin : UInt32) (now : Nat)
    (goods : List GoodsInfo → Option (List GoodsInfo)) : Option ExchangeGiftsInfo := do
  let (notifications, idx) ← newNotification info.notifications type limitNum
  let n ← notifications[idx]?
  let goodsList ← goods n.goodsList
  -- `IncreaseAddNotificationId` returns the id before it
  let n := { n with uin := uin, id := info.lastNotificationId, createTime := UInt32.ofNat now, goodsList := goodsList }
  return { info with notifications := notifications.set idx n, lastNotificationId := info.lastNotificationId + 1 }

variable (g : ExchangeGifts) (now : Nat) (infos : InfoMap)

/-- `AskForGifts`. -/
def askForGifts (initiatorUin recipientUin : UInt32) : Option (Int × InfoMap) :=
  let initiatorInfo := getExchangeGiftsInfo infos initiatorUin
  if initiatorInfo.requestRecords.length > g.maxDayRequestNum then some (-1, infos)
  else if reachRequestToSameUinLimit initiatorInfo.requestRecords recipientUin g.maxDayRequestNumToSameOne then some (-2, infos)
  else
    let recipientInfo := getExchangeGiftsInfo infos recipientUin
    if recipientInfo.sendRecords.length > g.maxDaySendNum then some (-3, infos)
    -- the records of the initiator are looked at, not those of the recipient
    else if reachSendToSameUinLimit initiatorInfo.sendRecords recipientUin g.maxDaySendNumToSameOne then some (-4, infos)
    else do
      let initiatorInfo := { initiatorInfo with requestRecords := initiatorInfo.requestRecords ++ [⟨recipientUin⟩] }
      let gifts ← g.lowerBound 35
      let recipientInfo ← notify recipientInfo .requestGift g.maxRequestGiftNotificationNum initiatorUin now (copyGiftInfo gifts)
      return (0, updateExchangeGiftsInfo (updateExchangeGiftsInfo infos initiatorInfo) recipientInfo)

/-- `ReplyGiftRequest`. -/
def replyGiftRequest (selfUin notificationId : UInt32) : Option (Int × InfoMap) :=
  let selfInfo := getExchangeGiftsInfo infos selfUin
  if selfInfo.sendRecords.length > g.maxDaySendNum then some (-1, infos)
  else
    match findNotificationAndRemove selfInfo.notifications notificationId with
    | none => some (-1, infos)
    | some (n, notifications) =>
        let recipientUin := n.uin
        if reachSendToSameUinLimit selfInfo.sendRecords recipientUin g.maxDaySendNumToSameOne then some (-2, infos)
        else do
          let recipientInfo := getExchangeGiftsInfo infos recipientUin
          let selfInfo := { selfInfo with
            notifications := notifications
            sendRecords := selfInfo.sendRecords ++ [⟨recipientUin, .responseRequest⟩] }
          -- the goods are swapped
          let recipientInfo ← notify recipientInfo .receiveGift g.maxReceiveGiftNotificationNum selfUin now fun _ => some n.goodsList
          let recipientInfo :=
            { recipientInfo with unprocessedMessageCount := recipientInfo.unprocessedMessageCount + 1 }
          return (0, updateExchangeGiftsInfo (updateExchangeGiftsInfo infos selfInfo) recipientInfo)

/-- `SendGifts`. -/
def sendGifts (selfUin recipientUin : UInt32) : Option (Int × InfoMap) :=
  let selfInfo := getExchangeGiftsInfo infos selfUin
  if selfInfo.sendRecords.length > g.maxDaySendNum then some (-1, infos)
  else if reachSendToSameUinLimit selfInfo.sendRecords recipientUin g.maxDaySendNumToSameOne then some (-2, infos)
  else do
    let recipientInfo := getExchangeGiftsInfo infos recipientUin
    let selfInfo := { selfInfo with sendRecords := selfInfo.sendRecords ++ [⟨recipientUin, .selfActive⟩] }
    let gifts ← g.lowerBound 35
    let recipientInfo ← notify recipientInfo .receiveGift g.maxReceiveGiftNotificationNum selfUin now (copyGiftInfo gifts)
    let recipientInfo := { recipientInfo with unprocessedMessageCount := recipientInfo.unprocessedMessageCount + 1 }
    return (0, updateExchangeGiftsInfo (updateExchangeGiftsInfo infos selfInfo) recipientInfo)

/-- `ReceiveGift`. -/
def receiveGift (selfUin notificationId : UInt32) : Option (Int × InfoMap) :=
  let selfInfo := getExchangeGiftsInfo infos selfUin
  match findNotificationAndRemove selfInfo.notifications notificationId with
  | none => some (-1, infos)
  | some (n, notifications) =>
      let senderUin := n.uin
      if selfInfo.receiveRecords.length > g.maxDayReceiveNum then some (-1, infos)
      else if reachReceiveFromSameUinLimit selfInfo.receiveRecords senderUin g.maxDayReceiveNumFromSameOne then some (-2, infos)
      else
        let selfInfo := { selfInfo with
          notifications := notifications
          receiveRecords := selfInfo.receiveRecords ++ [⟨senderUin⟩] }
        some (0, updateExchangeGiftsInfo infos selfInfo)

/-- `ClearInfoIfExpired`: `info.Clear()` clears the `uin` as well. -/
def clearInfoIfExpired (uin : UInt32) : InfoMap :=
  let info := getExchangeGiftsInfo infos uin
  if (info.lastLoginTime.toNat : Int) - now > 24 * 3600 then
    let notifications := removeExpiredNotifications info.notifications g.notificationTtl now
    updateExchangeGiftsInfo infos { lastLoginTime := UInt32.ofNat now, notifications := notifications }
  else infos

/-! ## Calls -/

inductive Call
  | askForGifts (initiatorUin recipientUin : UInt32)
  | sendGifts (selfUin recipientUin : UInt32)
  | replyGiftRequest (selfUin notificationId : UInt32)
  | receiveGift (selfUin notificationId : UInt32)

/-- A call at some time. -/
def Call.exec (g : ExchangeGifts) (infos : InfoMap) (now : Nat) : Call → Option (Int × InfoMap)
  | .askForGifts a b => g.askForGifts now infos a b
  | .sendGifts a b => g.sendGifts now infos a b
  | .replyGiftRequest a id => g.replyGiftRequest now infos a id
  | .receiveGift a id => g.receiveGift infos a id

end ExchangeGifts
end Snippets
