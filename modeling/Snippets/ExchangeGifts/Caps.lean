import Mathlib.Data.List.Infix
import Snippets.ExchangeGifts.Filing

/-!
# `ExchangeGifts.Caps` — the daily limits

Before a record is added, its number and the number for the same user are compared with their limits, but a call is refused
only above a limit and not at it. `within_iff_belowCaps` says that the limits hold in a run exactly when each call of it finds
room.
-/

namespace Snippets
namespace ExchangeGifts

open Lib

variable {g : ExchangeGifts} {now : Nat} {infos infos' : InfoMap} {a b u uin id : UInt32} {ret : Int} {call : Call}
  {info info' self recipient : ExchangeGiftsInfo}

/-! ## Capped lists of records

At most so many records, and so many of one user. A new record keeps that when there is room for both. -/

section Records

variable {T : Type} {uinOf : T → UInt32} {cap same : Nat} {records : List T} {r : T}

/-- The records for one user. -/
def countOf (uinOf : T → UInt32) (records : List T) (uin : UInt32) : Nat := records.countP fun r => uinOf r = uin

/-- Not more records than `cap`, and not more than `same` for one user. -/
def Capped (uinOf : T → UInt32) (cap same : Nat) (records : List T) : Prop :=
  records.length ≤ cap ∧ ∀ uin, countOf uinOf records uin ≤ same

/-- There is room for one record more. -/
def Room (uinOf : T → UInt32) (cap same : Nat) (records : List T) (uin : UInt32) : Prop :=
  records.length < cap ∧ countOf uinOf records uin < same

instance (uinOf : T → UInt32) (cap same : Nat) (records : List T) (uin : UInt32) :
    Decidable (Room uinOf cap same records uin) := by
  unfold Room
  infer_instance

/-- The empty list, -/
theorem capped_nil : Capped uinOf cap same [] := ⟨Nat.zero_le _, fun _ => Nat.zero_le _⟩

/-- one more of its user, -/
theorem countOf_concat (uinOf : T → UInt32) (records : List T) (r : T) (uin : UInt32) :
    countOf uinOf (records ++ [r]) uin = countOf uinOf records uin + if uinOf r = uin then 1 else 0 := by
  unfold countOf
  rw [List.countP_append, List.countP_singleton]
  simp only [decide_eq_true_eq]

/-- and so when there is room. -/
theorem capped_concat (h : Capped uinOf cap same records) :
    Capped uinOf cap same (records ++ [r]) ↔ Room uinOf cap same records (uinOf r) := by
  constructor
  · rintro ⟨hlen, hcount⟩
    rw [List.length_append, List.length_singleton] at hlen
    have hr := hcount (uinOf r)
    rw [countOf_concat, if_pos rfl] at hr
    exact ⟨hlen, hr⟩
  · rintro ⟨hlen, hcount⟩
    refine ⟨?_, ?_⟩
    · rw [List.length_append, List.length_singleton]
      exact hlen
    · intro uin
      rw [countOf_concat]
      by_cases heq : uinOf r = uin
      · rw [if_pos heq, ← heq]
        exact hcount
      · rw [if_neg heq]
        exact h.2 uin

/-- The source's loop counts the records of the user, and is true only above the limit. -/
theorem reachLoop_eq_true {num : Nat} (h : reachLoop uinOf uin same records num = true) :
    same < num + countOf uinOf records uin := by
  induction records generalizing num with
  | nil => cases h
  | cons r records ih =>
      unfold reachLoop at h
      unfold countOf
      rw [List.countP_cons]
      by_cases hr : uinOf r = uin
      · rw [if_pos hr] at h
        rw [if_pos (decide_eq_true hr)]
        dsimp only at h
        split at h
        · omega
        · have hlt := ih h
          unfold countOf at hlt
          omega
      · rw [if_neg hr] at h
        rw [if_neg (by simpa using hr)]
        dsimp only at h
        split at h
        · omega
        · have hlt := ih h
          unfold countOf at hlt
          omega

/-- Within the limits, no limit is reached. -/
theorem Capped.not_reach (h : Capped uinOf cap same records) (uin : UInt32) :
    ¬ reachToSameUinLimit uinOf records uin same = true := by
  intro hreach
  have hlt := reachLoop_eq_true hreach
  rw [Nat.zero_add] at hlt
  exact Nat.not_lt_of_le (h.2 uin) hlt

end Records

/-! ## The limits

Three lists for each user. -/

/-- The records of one user are within the limits. -/
structure WithinCaps (g : ExchangeGifts) (info : ExchangeGiftsInfo) : Prop where
  request : Capped RequestRecord.uin g.maxDayRequestNum g.maxDayRequestNumToSameOne info.requestRecords
  send : Capped SendRecord.uin g.maxDaySendNum g.maxDaySendNumToSameOne info.sendRecords
  receive : Capped ReceiveRecord.uin g.maxDayReceiveNum g.maxDayReceiveNumFromSameOne info.receiveRecords

/-- Those of every user are. -/
def Within (g : ExchangeGifts) (infos : InfoMap) : Prop := ∀ uin info, infos uin = some info → WithinCaps g info

/-- The record that a call adds has room. It does not need any when the second update takes the place of the first. -/
def BelowCaps (g : ExchangeGifts) (infos : InfoMap) : Call → Prop
  | .askForGifts a b =>
      (getExchangeGiftsInfo infos a).uin ≠ (getExchangeGiftsInfo infos b).uin →
        Room RequestRecord.uin g.maxDayRequestNum g.maxDayRequestNumToSameOne (getExchangeGiftsInfo infos a).requestRecords b
  | .sendGifts a b =>
      (getExchangeGiftsInfo infos a).uin ≠ (getExchangeGiftsInfo infos b).uin →
        Room SendRecord.uin g.maxDaySendNum g.maxDaySendNumToSameOne (getExchangeGiftsInfo infos a).sendRecords b
  | .replyGiftRequest a id => ∀ n, firstNotification infos a id = some n →
      (getExchangeGiftsInfo infos a).uin ≠ (getExchangeGiftsInfo infos n.uin).uin →
        Room SendRecord.uin g.maxDaySendNum g.maxDaySendNumToSameOne (getExchangeGiftsInfo infos a).sendRecords n.uin
  | .receiveGift a id => ∀ n, firstNotification infos a id = some n →
      Room ReceiveRecord.uin g.maxDayReceiveNum g.maxDayReceiveNumFromSameOne (getExchangeGiftsInfo infos a).receiveRecords n.uin

instance (g : ExchangeGifts) (infos : InfoMap) (call : Call) : Decidable (BelowCaps g infos call) :=
  match call with
  | .askForGifts a b => inferInstanceAs (Decidable ((getExchangeGiftsInfo infos a).uin ≠ (getExchangeGiftsInfo infos b).uin →
      Room RequestRecord.uin g.maxDayRequestNum g.maxDayRequestNumToSameOne (getExchangeGiftsInfo infos a).requestRecords b))
  | .sendGifts a b => inferInstanceAs (Decidable ((getExchangeGiftsInfo infos a).uin ≠ (getExchangeGiftsInfo infos b).uin →
      Room SendRecord.uin g.maxDaySendNum g.maxDaySendNumToSameOne (getExchangeGiftsInfo infos a).sendRecords b))
  | .replyGiftRequest a id => inferInstanceAs (Decidable (∀ n ∈ firstNotification infos a id,
      (getExchangeGiftsInfo infos a).uin ≠ (getExchangeGiftsInfo infos n.uin).uin →
        Room SendRecord.uin g.maxDaySendNum g.maxDaySendNumToSameOne (getExchangeGiftsInfo infos a).sendRecords n.uin))
  | .receiveGift a id => inferInstanceAs (Decidable (∀ n ∈ firstNotification infos a id,
      Room ReceiveRecord.uin g.maxDayReceiveNum g.maxDayReceiveNumFromSameOne (getExchangeGiftsInfo infos a).receiveRecords n.uin))

/-- A user without an entry has none, -/
theorem withinCaps_default (g : ExchangeGifts) : WithinCaps g {} := ⟨capped_nil, capped_nil, capped_nil⟩

/-- so the getter's entry is within the limits too. -/
theorem Within.get (h : Within g infos) (u : UInt32) : WithinCaps g (getExchangeGiftsInfo infos u) := by
  unfold getExchangeGiftsInfo
  cases hu : infos u with
  | none => exact withinCaps_default g
  | some info => exact h u info hu

/-- An update changes one user. -/
theorem within_update (h : Within g infos) : Within g (updateExchangeGiftsInfo infos info) ↔ WithinCaps g info := by
  constructor
  · intro h'
    exact h' info.uin info (update_same infos info)
  · intro hinfo u found hfound
    by_cases hu : u = info.uin
    · subst hu
      rw [update_same] at hfound
      cases hfound
      exact hinfo
    · rw [update_other hu] at hfound
      exact h u found hfound

/-- Of two updates, the first one stays only when the second one is elsewhere. -/
theorem within_updateTwo (h : Within g infos) (hrecipient : WithinCaps g recipient) :
    Within g (updateTwo infos self recipient) ↔ (self.uin ≠ recipient.uin → WithinCaps g self) := by
  constructor
  · intro h' hne
    have hself := h'.get self.uin
    rw [get_updateTwo_first hne] at hself
    exact hself
  · intro hself u found hfound
    unfold updateTwo at hfound
    by_cases hu : u = recipient.uin
    · subst hu
      rw [update_same] at hfound
      cases hfound
      exact hrecipient
    · rw [update_other hu] at hfound
      by_cases hu' : u = self.uin
      · subst hu'
        rw [update_same] at hfound
        cases hfound
        exact hself hu
      · rw [update_other hu'] at hfound
        exact h u found hfound

/-- Only the records matter. -/
theorem withinCaps_of_records (h : WithinCaps g info) (hsend : info'.sendRecords = info.sendRecords)
    (hrequest : info'.requestRecords = info.requestRecords) (hreceive : info'.receiveRecords = info.receiveRecords) :
    WithinCaps g info' := by
  refine ⟨?_, ?_, ?_⟩
  · rw [hrequest]
    exact h.request
  · rw [hsend]
    exact h.send
  · rw [hreceive]
    exact h.receive

/-- A send record more keeps the limits exactly when there is room for it. -/
theorem WithinCaps.send_concat (h : WithinCaps g info) (r : SendRecord) (hsend : info'.sendRecords = info.sendRecords ++ [r])
    (hrequest : info'.requestRecords = info.requestRecords) (hreceive : info'.receiveRecords = info.receiveRecords) :
    WithinCaps g info' ↔ Room SendRecord.uin g.maxDaySendNum g.maxDaySendNumToSameOne info.sendRecords r.uin := by
  rw [← capped_concat h.send, ← hsend]
  constructor
  · intro h'
    exact h'.send
  · intro hcapped
    refine ⟨?_, hcapped, ?_⟩
    · rw [hrequest]
      exact h.request
    · rw [hreceive]
      exact h.receive

/-- Within the limits a call is refused only when there is no such notification. -/
theorem Within.refused (h : Within g infos) (hwhy : Refused g infos call) : BelowCaps g infos call := by
  have hvacuous : ∀ {a id : UInt32} {P : Notification → Prop}, firstNotification infos a id = none →
      ∀ n, firstNotification infos a id = some n → P n := by
    intro a id P hnone n hn
    rw [hnone] at hn
    cases hn
  cases call with
  | askForGifts a b =>
      rcases hwhy with hwhy | hwhy | hwhy | hwhy
      · exact absurd hwhy (Nat.not_lt_of_le (h.get a).request.1)
      · exact absurd hwhy ((h.get a).request.not_reach b)
      · exact absurd hwhy (Nat.not_lt_of_le (h.get b).send.1)
      · exact absurd hwhy ((h.get a).send.not_reach b)
  | sendGifts a b =>
      rcases hwhy with hwhy | hwhy
      · exact absurd hwhy (Nat.not_lt_of_le (h.get a).send.1)
      · exact absurd hwhy ((h.get a).send.not_reach b)
  | replyGiftRequest a id =>
      rcases hwhy with hwhy | hwhy | ⟨n, hwhy⟩
      · exact absurd hwhy (Nat.not_lt_of_le (h.get a).send.1)
      · exact hvacuous hwhy
      · exact absurd hwhy ((h.get a).send.not_reach n)
  | receiveGift a id =>
      rcases hwhy with hwhy | hwhy | ⟨n, hwhy⟩
      · exact hvacuous hwhy
      · exact absurd hwhy (Nat.not_lt_of_le (h.get a).receive.1)
      · exact absurd hwhy ((h.get a).receive.not_reach n)

/-- **One call** keeps the limits exactly when there is room for its record. -/
theorem within_step (h : Within g infos) (hexec : call.exec g infos now = some (ret, infos')) :
    Within g infos' ↔ BelowCaps g infos call := by
  rcases exec_inv hexec with ⟨-, rfl, hwhy⟩ | ⟨-, he⟩
  · exact ⟨fun _ => h.refused hwhy, fun _ => h⟩
  cases he with
  | @ask a b gifts recipient _ hnotify =>
      obtain ⟨huin, hsend, hrequest, hreceive⟩ := notify_uin hnotify
      rw [within_updateTwo h (withinCaps_of_records (h.get b) hsend hrequest hreceive), huin]
      have hcaps := h.get a
      -- a record that was added had room, exactly when its list is capped afterwards
      constructor
      · intro hself hne
        exact (capped_concat hcaps.request).mp (hself hne).request
      · intro hroom hne
        exact ⟨(capped_concat hcaps.request).mpr (hroom hne), hcaps.send, hcaps.receive⟩
  | @send a b gifts recipient _ hnotify =>
      obtain ⟨huin, hsend, hrequest, hreceive⟩ := notify_uin hnotify
      have hrecipient : WithinCaps g { recipient with unprocessedMessageCount := recipient.unprocessedMessageCount + 1 } :=
        withinCaps_of_records (h.get b) hsend hrequest hreceive
      rw [within_updateTwo h hrecipient, huin]
      exact imp_congr_right fun _ => (h.get a).send_concat ⟨b, .selfActive⟩ rfl rfl rfl
  | @reply a id n notifications recipient hfind hnotify =>
      obtain ⟨huin, hsend, hrequest, hreceive⟩ := notify_uin hnotify
      have hrecipient : WithinCaps g { recipient with unprocessedMessageCount := recipient.unprocessedMessageCount + 1 } :=
        withinCaps_of_records (h.get n.uin) hsend hrequest hreceive
      rw [within_updateTwo h hrecipient, huin]
      -- the notification that is answered is the only one that the condition is about
      simp only [BelowCaps, firstNotification_of_some hfind, Option.some.injEq, forall_eq']
      exact imp_congr_right fun _ => (h.get a).send_concat ⟨n.uin, .responseRequest⟩ rfl rfl rfl
  | @receive a id n notifications hfind =>
      rw [within_update h]
      have hcaps := h.get a
      have hfirst := firstNotification_of_some hfind
      constructor
      · intro hself m hm
        rw [hfirst] at hm
        cases hm
        exact (capped_concat hcaps.receive).mp hself.receive
      · intro hroom
        exact ⟨hcaps.request, hcaps.send, (capped_concat hcaps.receive).mpr (hroom n hfirst)⟩

/-! ## Runs

Step by step. -/

/-- A call, with the time it is made at, that fails no assertion. -/
def Step (g : ExchangeGifts) (infos : InfoMap) (c : Nat × Call) (infos' : InfoMap) : Prop :=
  ∃ ret, c.2.exec g infos c.1 = some (ret, infos')

/-- **The limits hold along a sequence of calls** exactly when each call finds room for its record. -/
theorem within_iff_belowCaps (h : Within g infos) (cs : List (Nat × Call)) :
    (∀ bs infos', bs <+: cs → Run (Step g) infos bs infos' → Within g infos') ↔
      ∀ bs c infos' infos'', bs ++ [c] <+: cs → Run (Step g) infos bs infos' → Step g infos' c infos'' →
        BelowCaps g infos' c.2 := by
  constructor
  · intro hwithin bs c infos' infos'' hbs hrun hstep
    have hbefore := hwithin bs infos' ((List.prefix_append bs [c]).trans hbs) hrun
    have hafter := hwithin (bs ++ [c]) infos'' hbs (hrun.tail hstep)
    obtain ⟨ret, hexec⟩ := hstep
    exact (within_step hbefore hexec).mp hafter
  · intro hbelow bs infos' hbs hrun
    induction hrun with
    | refl => exact h
    | @tail infos₁ infos₂ bs c hrun hstep ih =>
        have hroom := hbelow bs c _ _ hbs hrun hstep
        obtain ⟨ret, hexec⟩ := hstep
        exact (within_step (ih ((List.prefix_append bs [c]).trans hbs)) hexec).mpr hroom

/-- Two users without records, -/
theorem within_twoUsers (g : ExchangeGifts) : Within g twoUsers := by
  intro u info hu
  unfold twoUsers at hu
  split at hu
  · cases hu
    exact ⟨capped_nil, capped_nil, capped_nil⟩
  · cases hu

/-- A gift is asked for, sent and received, and another one is sent back. -/
def fourCalls : List (Nat × Call) := [(7, .askForGifts 2 1), (8, .replyGiftRequest 1 0), (9, .receiveGift 2 0), (9, .sendGifts 2 1)]

/-- after four calls that have room. -/
theorem within_fourCalls : ∃ infos', Run (Step oneGift) twoUsers fourCalls infos' ∧ Within oneGift infos' := by
  have hrun := (((Run.single (show Step oneGift twoUsers (7, .askForGifts 2 1) _ from ⟨0, rfl⟩)).tail
    (show Step oneGift _ (8, .replyGiftRequest 1 0) _ from ⟨0, rfl⟩)).tail
    (show Step oneGift _ (9, .receiveGift 2 0) _ from ⟨0, rfl⟩)).tail
    (show Step oneGift _ (9, .sendGifts 2 1) _ from ⟨0, rfl⟩)
  refine ⟨_, hrun, (within_iff_belowCaps (within_twoUsers oneGift) fourCalls).mpr ?_ _ _ List.prefix_rfl hrun⟩
  intro bs c infos' infos'' hbs hrun _
  refine of_decide_eq_true (Run.of_meets (fun infos c => (c.2.exec oneGift infos c.1).map Prod.snd)
    (fun infos c => decide (BelowCaps oneGift infos c.2)) ?_ ?_ hbs hrun)
  · rintro infos c infos' ⟨ret, hexec⟩
    rw [hexec]
    rfl
  · decide +kernel
/-- A second gift to the same user on one day. -/
theorem not_within_secondSend : ∃ infos',
    Run (Step oneGift) twoUsers [(7, .sendGifts 1 2), (8, .sendGifts 1 2)] infos' ∧ Within oneGift twoUsers ∧
      ¬ Within oneGift infos' := by
  refine ⟨_, (Run.single ⟨0, rfl⟩).tail ⟨0, rfl⟩, within_twoUsers oneGift, ?_⟩
  intro h
  have hsame := (h 1 _ rfl).send.2 2
  revert hsame
  decide

end ExchangeGifts
end Snippets
