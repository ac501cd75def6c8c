import Snippets.RemoteClangFormat.Model

/-!
# `RemoteClangFormat.Framing` — what `Echo` makes of a stream in pieces

`Echo.seen` is the part of the stream that has been handed over, read off the object alone; each call of `dataReceived`
appends to it (`seen_dataReceived`). So it does not matter how a stream is cut, but for one thing: the test for four
bytes at the start of `dataReceived` is meant for the length, and is made for the request as well.
-/

namespace Snippets
namespace RemoteClangFormat

open Lib

/-- A request as it is on its way: its length and its bytes. -/
def frame (body : Bytes) : Bytes := toLe 4 body.length ++ body

@[simp] theorem length_frame (body : Bytes) : (frame body).length = 4 + body.length := by
  simp [frame]

/-- Two strings of four bytes with one value are equal. -/
theorem toLe_ofLe (bs : Bytes) : toLe bs.length (ofLe bs) = bs := by
  induction bs with
  | nil => rfl
  | cons b bs ih =>
      have hb : UInt8.ofNat (b.toNat + 256 * ofLe bs) = b := by
        apply UInt8.toNat_inj.mp
        have := b.toNat_lt
        rw [UInt8.toNat_ofNat']
        omega
      have hdiv : (b.toNat + 256 * ofLe bs) / 256 = ofLe bs := by
        have := b.toNat_lt
        omega
      simp [toLe, ofLe, hb, hdiv, ih]

theorem ofLe_toLe_four {v : Nat} (h : v < 2 ^ 32) : ofLe (toLe 4 v) = v := by
  rw [ofLe_toLe]
  exact Nat.mod_eq_of_lt h

/-- The length in front of a stream is read back. -/
theorem ofLe_take_frame {body rest w : Bytes} (hsize : body.length < 2 ^ 32) (hw : w ++ rest = frame body)
    (hlen : 4 ≤ w.length) : ofLe (w.take 4) = body.length := by
  have htake : w.take 4 = toLe 4 body.length := by
    have h₁ : (w ++ rest).take 4 = w.take 4 := List.take_append_of_le_length hlen
    rw [← h₁, hw]
    simp [frame]
  rw [htake, ofLe_toLe_four hsize]

theorem drop_append_frame {body rest w : Bytes} (hw : w ++ rest = frame body) (hlen : 4 ≤ w.length) :
    w.drop 4 ++ rest = body := by
  have h₁ : (w ++ rest).drop 4 = w.drop 4 ++ rest := List.drop_append_of_le_length hlen
  rw [← h₁, hw]
  simp [frame]

namespace Echo

variable {e : Echo} {chunk body rest : Bytes}

/-- The part of the stream that has been handed over. -/
def seen (e : Echo) : Bytes :=
  match e.len with
  | none => e.data
  | some l => toLe 4 l ++ e.data

/-- The length is taken off as soon as it is there. -/
def Sound (e : Echo) : Prop :=
  match e.len with
  | none => e.data.length < 4
  | some l => l < 2 ^ 32

theorem sound_new : Sound .new := by
  simp [Sound, new]

/-- Nothing of the stream is lost or changed. -/
theorem seen_dataReceived (h : e.Sound) (chunk : Bytes) :
    (e.dataReceived chunk).1.seen = e.seen ++ chunk ∧ (e.dataReceived chunk).1.Sound := by
  obtain ⟨len, data⟩ := e
  cases len with
  | none =>
      by_cases hshort : (data ++ chunk).length < 4
      · have heq : (⟨none, data⟩ : Echo).dataReceived chunk = (⟨none, data ++ chunk⟩, none) := by
          simp only [dataReceived, hshort, if_true]
        rw [heq]
        exact ⟨rfl, hshort⟩
      · have hfst : ((⟨none, data⟩ : Echo).dataReceived chunk).1 =
            ⟨some (ofLe ((data ++ chunk).take 4)), (data ++ chunk).drop 4⟩ := by
          simp only [dataReceived, hshort, if_false]
          split <;> rfl
        have hfour : ((data ++ chunk).take 4).length = 4 := by
          rw [List.length_take]
          omega
        have hword := toLe_ofLe ((data ++ chunk).take 4)
        have hlt := ofLe_lt ((data ++ chunk).take 4)
        rw [hfour] at hword hlt
        rw [hfst]
        refine ⟨?_, hlt⟩
        show toLe 4 _ ++ _ = data ++ chunk
        rw [hword, List.take_append_drop]
  | some l =>
      have hfst : ((⟨some l, data⟩ : Echo).dataReceived chunk).1 = ⟨some l, data ++ chunk⟩ := by
        simp only [dataReceived]
        split
        · rfl
        · split <;> rfl
      rw [hfst]
      exact ⟨by simp [seen], h⟩

/-- The message of a call, once the length has been read. -/
theorem message_of_len {l : Nat} {data : Bytes} (hfour : 4 ≤ (data ++ chunk).length) (hpos : l ≠ 0) :
    ((⟨some l, data⟩ : Echo).dataReceived chunk).2 = if (data ++ chunk).length = l then some (data ++ chunk) else none := by
  have hlong : ¬ (data ++ chunk).length < 4 := by omega
  simp only [dataReceived, hlong, if_false]
  by_cases heq : (data ++ chunk).length = l
  · simp [heq, hpos]
  · have heq' : ¬ (data.length + chunk.length = l) := by
      rw [← List.length_append]
      exact heq
    simp [heq', Ne.symm heq']

/-- **One call, on a request of at least four bytes**: the request is passed on when it is complete, and not before. -/
theorem message_dataReceived (h : e.Sound) (hsize : body.length < 2 ^ 32) (hfour : 4 ≤ body.length)
    (hseen : e.seen ++ chunk ++ rest = frame body) :
    (e.dataReceived chunk).2 = if rest = [] then some body else none := by
  obtain ⟨len, data⟩ := e
  cases len with
  | none =>
      have hseen' : (data ++ chunk) ++ rest = frame body := hseen
      by_cases hshort : (data ++ chunk).length < 4
      · have hrest : rest ≠ [] := by
          rintro rfl
          have hlength := congrArg List.length hseen'
          rw [List.append_nil, length_frame] at hlength
          omega
        simp only [dataReceived, hshort, if_true, hrest, if_false]
      · have hlen := ofLe_take_frame hsize hseen' (by omega)
        have hdrop := drop_append_frame hseen' (by omega)
        simp only [dataReceived, hshort, if_false, hlen]
        by_cases hrest : rest = []
        · subst hrest
          rw [List.append_nil] at hdrop
          simp only [hdrop, if_true]
          have hpos : body.length ≠ 0 := by omega
          simp [hpos]
        · have hne : body.length ≠ ((data ++ chunk).drop 4).length := by
            rw [← hdrop, List.length_append]
            have := List.length_pos_of_ne_nil hrest
            omega
          simp only [Option.some.injEq, hne, and_false, if_false, hrest]
  | some l =>
      have hseen' : (toLe 4 l ++ (data ++ chunk)) ++ rest = frame body := by
        rw [← hseen]
        simp [seen]
      have hlen := ofLe_take_frame hsize hseen' (by simp)
      have hdrop := drop_append_frame hseen' (by simp)
      simp only [List.take_left' (toLe_length 4 l), List.drop_left' (toLe_length 4 l)] at hlen hdrop
      rw [ofLe_toLe_four h] at hlen
      subst hlen
      by_cases hrest : rest = []
      · subst hrest
        rw [List.append_nil] at hdrop
        have hlong : 4 ≤ (data ++ chunk).length := by rw [hdrop]; exact hfour
        rw [message_of_len hlong (by omega), hdrop]
        simp
      · have hlength : (data ++ chunk).length + rest.length = body.length := by rw [← List.length_append, hdrop]
        have hpos := List.length_pos_of_ne_nil hrest
        have hne : (data ++ chunk).length ≠ body.length := by omega
        by_cases hlong : 4 ≤ (data ++ chunk).length
        · rw [message_of_len hlong (by omega)]
          simp only [hne, hrest, if_false]
        · have hshort : (data ++ chunk).length < 4 := by omega
          simp only [dataReceived, hshort, if_true, hrest, if_false]

/-! ## All the pieces of a stream -/

/-- The messages that the pieces of a stream give rise to. -/
def messages : Echo → List Bytes → List Bytes
  | _, [] => []
  | e, chunk :: chunks => (e.dataReceived chunk).2.toList ++ messages (e.dataReceived chunk).1 chunks

/-- However what is left of a request is cut, it is passed on once. -/
theorem messages_of_seen (hsize : body.length < 2 ^ 32) (hfour : 4 ≤ body.length) {chunks : List Bytes} (h : e.Sound)
    (hne : ∀ c ∈ chunks, c ≠ []) (hseen : e.seen ++ chunks.flatten = frame body) :
    e.messages chunks = if chunks = [] then [] else [body] := by
  induction chunks generalizing e with
  | nil => simp [messages]
  | cons chunk chunks ih =>
      rw [List.flatten_cons, ← List.append_assoc] at hseen
      obtain ⟨hnext, hsound⟩ := seen_dataReceived h chunk
      have hmessage := message_dataReceived h hsize hfour hseen
      have hrest : chunks.flatten = [] ↔ chunks = [] := by
        constructor
        · intro hflat
          cases chunks with
          | nil => rfl
          | cons c cs =>
              have hc : c = [] := (List.append_eq_nil_iff.mp hflat).1
              exact absurd hc (hne c (by simp))
        · rintro rfl
          rfl
      have htail := ih hsound (fun c hc => hne c (List.mem_cons_of_mem _ hc)) (by rw [hnext]; exact hseen)
      unfold messages
      rw [hmessage, htail]
      by_cases hlast : chunks = []
      · simp [hlast]
      · simp [hlast, hrest]

/-- **Which requests the server understands however they are cut**: those of at least four bytes. A shorter one is
    lost when its length comes in a piece of its own. -/
theorem understood_iff (hsize : body.length < 2 ^ 32) :
    (∀ chunks : List Bytes, (∀ c ∈ chunks, c ≠ []) → chunks.flatten = frame body → Echo.new.messages chunks = [body]) ↔
      4 ≤ body.length := by
  constructor
  · intro h
    by_contra hshort
    have hshort' : body.length < 4 := by omega
    by_cases hempty : body = []
    · -- a length of zero is never taken for that of a request
      subst hempty
      have h₁ := h [toLe 4 0] (by simp [toLe]) (by simp [frame])
      simp [messages, dataReceived, new] at h₁
    · -- the length alone, then the request, which fails the test for four bytes
      have h₁ := h [toLe 4 body.length, body] (by simp [toLe, hempty]) (by simp [frame])
      simp [messages, dataReceived, new, hshort'] at h₁
  · intro hfour chunks hne hflat
    have h₁ := messages_of_seen hsize hfour sound_new hne hflat
    rw [h₁, if_neg]
    rintro rfl
    have hlength := congrArg List.length hflat
    rw [length_frame] at hlength
    simp only [List.flatten_nil, List.length_nil] at hlength
    omega

/-- Three pieces, cut within the length and within the request. -/
theorem understood_iff_four : Echo.new.messages [[4, 0, 0], [0, 1], [2, 3, 4]] = [[1, 2, 3, 4]] :=
  (understood_iff (by simp)).mpr (by simp) _ (by simp) (by decide)

end Echo

end RemoteClangFormat
end Snippets
