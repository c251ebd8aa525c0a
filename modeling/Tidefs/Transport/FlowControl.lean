/-
# Credits between a sender and a receiver

Each end of a stream keeps a window of credits. The sender spends credits before it
transmits, the receiver spends them when the bytes arrive, and when few are left the
receiver fills its own window up and sends what it added as a grant, which the sender adds
to its own. Under pressure the window is filled up to a part of it only. A grant travels as
a frame with a digest; the digest is a parameter.

The receiver has what the sender has and what is under way, bytes and grants, in whatever
order things happen (`run_balanced`): a grant is exactly what the receiver's window grew by,
and the cap of the sender's window never cuts one, since a window with a grant under way is
not above its maximum.
-/
import Tidefs.Lib.Codec

namespace Tidefs.FlowControl

open Codec
open List hiding Vector cons max min nil set

/-! ### Windows -/

/-- The errors of flow control. -/
inductive FlowControlError where
  | windowExhausted
  | invalidCreditFrame
  | staleCreditSequence (received last : ℕ)
  | streamNotFound (streamId : UInt64)
  | unknownFrameType (frameType : UInt8)

/-- The bytes a sender may still send. -/
structure CreditWindow where
  maxWindowBytes : ℕ
  lowWatermark : ℕ
  availableCredits : ℕ

/-- How full the queues of the cluster are. -/
inductive ClusterQueuePressure where
  | none
  | softPressure
  | hardPressure

/-- The body of the two functions below. -/
def pressureAdjusted (bytes : ℕ) (pressure : ClusterQueuePressure) : ℕ :=
  if bytes = 0 then 0
  else
    match pressure with
    | .none => bytes
    | .softPressure => max (bytes / 2) 1
    | .hardPressure => max (bytes / 4) 1

def pressureAdjustedWindowBytes (bytes : ℕ) (pressure : ClusterQueuePressure) : ℕ := pressureAdjusted bytes pressure

def pressureAdjustedLowWatermark (bytes : ℕ) (pressure : ClusterQueuePressure) : ℕ := pressureAdjusted bytes pressure

theorem pressureAdjusted_le (bytes : ℕ) (pressure : ClusterQueuePressure) : pressureAdjusted bytes pressure ≤ bytes := by
  unfold pressureAdjusted
  split_ifs with h
  · exact Nat.zero_le _
  · cases pressure with
    | none => exact le_rfl
    | softPressure => exact max_le (Nat.div_le_self _ _) (by omega)
    | hardPressure => exact max_le (Nat.div_le_self _ _) (by omega)

namespace CreditWindow

variable (w : CreditWindow)

def consume (bytes : ℕ) : Except FlowControlError CreditWindow :=
  if bytes > w.availableCredits then .error .windowExhausted
  else .ok { w with availableCredits := w.availableCredits - bytes }

def grant (bytes : ℕ) : CreditWindow × ℕ :=
  let space := w.maxWindowBytes - w.availableCredits
  let added := min bytes space
  ({ w with availableCredits := w.availableCredits + added }, added)

def needsGrant : Bool := w.availableCredits < w.lowWatermark

def refillAmount : ℕ := w.maxWindowBytes - w.availableCredits

variable (pressure : ClusterQueuePressure)

def maxWindowBytesUnderClusterPressure : ℕ :=
  pressureAdjustedWindowBytes w.maxWindowBytes pressure

def lowWatermarkUnderClusterPressure : ℕ :=
  pressureAdjustedLowWatermark w.lowWatermark pressure

def advertisedCreditsUnderClusterPressure : ℕ :=
  min w.availableCredits (w.maxWindowBytesUnderClusterPressure pressure)

def refillAmountUnderClusterPressure : ℕ :=
  w.maxWindowBytesUnderClusterPressure pressure - w.advertisedCreditsUnderClusterPressure pressure

end CreditWindow

open CreditWindow

/-! ### Frames -/

/-- The frames that carry credits. -/
inductive FlowControlFrame where
  | creditGrant (streamId : UInt64) (credits : ℕ)
  | creditRequest (streamId : UInt64) (requested : ℕ)

def flowControlMagic : Bytes := [0x56, 0x46, 0x43, 0x54]

def flowControlFrameSize : ℕ := 53

def frameTypeGrant : UInt8 := 0

def frameTypeRequest : UInt8 := 1

def fcTypeGrant : ℕ := 1

def fcTypeRequest : ℕ := 2

-- the digest in the flow-control domain, under the schema type of the frame
variable (digest : ℕ → Bytes → Vector UInt8 32)

def encodeFlowControlFrame (frame : FlowControlFrame) : Bytes :=
  let (frameType, streamId, value) :=
    match frame with
    | .creditGrant streamId credits => (frameTypeGrant, streamId, credits)
    | .creditRequest streamId requested => (frameTypeRequest, streamId, requested)
  let typeId := if frameType = frameTypeGrant then fcTypeGrant else fcTypeRequest
  let payload := flowControlMagic ++ [frameType] ++ toLe 8 streamId.toNat ++ toLe 8 value
  payload ++ (digest typeId payload).toList

def decodeFlowControlFrame (frame : Bytes) : Except FlowControlError FlowControlFrame :=
  if frame.length ≠ flowControlFrameSize then .error .invalidCreditFrame
  else if slice frame 0 4 ≠ flowControlMagic then .error .invalidCreditFrame
  else
    let frameType := frame.getD 4 0
    let streamId := UInt64.ofNat (fromLe (slice frame 5 8))
    let value := fromLe (slice frame 13 8)
    let verify typeId := slice frame 21 32 = (digest typeId (slice frame 0 21)).toList
    if frameType = frameTypeGrant then
      if verify fcTypeGrant then .ok (.creditGrant streamId value) else .error .invalidCreditFrame
    else if frameType = frameTypeRequest then
      if verify fcTypeRequest then .ok (.creditRequest streamId value) else .error .invalidCreditFrame
    else .error (.unknownFrameType frameType)

/-- **A grant is read back.** -/
theorem decode_encode (id : UInt64) {credits : ℕ} (h : credits < 2 ^ 64) :
    decodeFlowControlFrame digest (encodeFlowControlFrame digest (.creditGrant id credits)) =
      .ok (.creditGrant id credits) := by
  set frame := encodeFlowControlFrame digest (.creditGrant id credits)
  -- the fields stand at their places
  have hlen : frame.length = flowControlFrameSize := by
    simp [frame, encodeFlowControlFrame, flowControlMagic, flowControlFrameSize]
  have hmagic : slice frame 0 4 = flowControlMagic := rfl
  have htype : frame.getD 4 0 = frameTypeGrant := rfl
  have hid : slice frame 5 8 = toLe 8 id.toNat := rfl
  have hvalue : slice frame 13 8 = toLe 8 credits := rfl
  have hdigest : slice frame 21 32 = (digest fcTypeGrant (slice frame 0 21)).toList :=
    take_of_length_le (Vector.length_toList).le
  unfold decodeFlowControlFrame
  rw [if_neg (not_not.mpr hlen), if_neg (not_not.mpr hmagic)]
  rw [if_pos htype, if_pos hdigest, hid, hvalue, fromLe_toLe (by simpa using id.toNat_lt), UInt64.ofNat_toNat,
    fromLe_toLe (by simpa using h)]

/-! ### Controllers -/

/-- One end of a stream. -/
structure FlowController where
  window : CreditWindow
  streamId : UInt64
  nextGrantSeq : ℕ
  lastReceivedGrantSeq : ℕ

namespace FlowController

variable (c : FlowController)

def new (streamId : UInt64) (window : CreditWindow) : FlowController := ⟨window, streamId, 1, 0⟩

def consumeCredits (bytes : ℕ) : Except FlowControlError FlowController :=
  (c.window.consume bytes).map fun window => { c with window }

def maybeSendCreditGrant : FlowController × Option FlowControlFrame :=
  if !c.window.needsGrant then (c, none)
  else
    let credits := c.window.refillAmount
    if credits = 0 then (c, none)
    else
      ({ c with window := (c.window.grant credits).1, nextGrantSeq := (c.nextGrantSeq + 1) % 2 ^ 64 },
        some (.creditGrant c.streamId credits))

def maybeSendCreditGrantUnderClusterPressure (pressure : ClusterQueuePressure) :
    FlowController × Option FlowControlFrame :=
  let available := c.window.advertisedCreditsUnderClusterPressure pressure
  let low := c.window.lowWatermarkUnderClusterPressure pressure
  if available ≥ low then (c, none)
  else
    let credits := c.window.refillAmountUnderClusterPressure pressure
    if credits = 0 then (c, none)
    else
      let window := { c.window with availableCredits := c.window.maxWindowBytesUnderClusterPressure pressure }
      ({ c with window, nextGrantSeq := (c.nextGrantSeq + 1) % 2 ^ 64 }, some (.creditGrant c.streamId credits))

def receiveCreditGrant (rawFrame : Bytes) : Except FlowControlError (FlowController × FlowControlFrame) := do
  let frame ← decodeFlowControlFrame digest rawFrame
  match frame with
  | .creditGrant _ credits =>
    return ({ c with window := (c.window.grant credits).1, lastReceivedGrantSeq := c.nextGrantSeq }, frame)
  | .creditRequest .. => return (c, frame)

/-- Nothing is granted, or what the window grows by, and it grows to its maximum at most. -/
def Grants (out : FlowController × Option FlowControlFrame) : Prop :=
  out = (c, none) ∨ ∃ credits, c.window.availableCredits + credits ≤ c.window.maxWindowBytes ∧
    out = ({ c with window := { c.window with availableCredits := c.window.availableCredits + credits },
                    nextGrantSeq := (c.nextGrantSeq + 1) % 2 ^ 64 }, some (.creditGrant c.streamId credits))

theorem maybeSendCreditGrant_grants : c.Grants c.maybeSendCreditGrant := by
  unfold maybeSendCreditGrant
  by_cases hneeds : (!c.window.needsGrant) = true
  · rw [if_pos hneeds]
    exact .inl rfl
  by_cases hzero : c.window.refillAmount = 0
  · rw [if_neg hneeds, if_pos hzero]
    exact .inl rfl
  · rw [if_neg hneeds, if_neg hzero]
    refine .inr ⟨c.window.refillAmount, ?_, ?_⟩
    · rw [refillAmount] at hzero ⊢
      omega
    · rw [grant, refillAmount, min_self]

/-- Under pressure too: what is advertised is all there is, or nothing is granted. -/
theorem maybeSendCreditGrantUnderClusterPressure_grants (pressure : ClusterQueuePressure) :
    c.Grants (c.maybeSendCreditGrantUnderClusterPressure pressure) := by
  unfold maybeSendCreditGrantUnderClusterPressure
  dsimp only
  split_ifs with hlow hzero
  · exact .inl rfl
  · exact .inl rfl
  · have hmax : c.window.maxWindowBytesUnderClusterPressure pressure ≤ c.window.maxWindowBytes := pressureAdjusted_le _ _
    have hfull : c.window.availableCredits + c.window.refillAmountUnderClusterPressure pressure =
        c.window.maxWindowBytesUnderClusterPressure pressure := by
      unfold refillAmountUnderClusterPressure advertisedCreditsUnderClusterPressure at *
      omega
    refine .inr ⟨c.window.refillAmountUnderClusterPressure pressure, hfull ▸ hmax, ?_⟩
    rw [hfull]

end FlowController

open FlowController

/-! ### The two ends and what is under way -/

structure Link where
  sender : FlowController
  receiver : FlowController
  /-- The bytes of each message under way. -/
  data : List ℕ
  /-- The frames under way to the sender. -/
  grants : List Bytes
  /-- What an end answered to something that arrived and was refused. -/
  refusals : List FlowControlError

def Link.start (streamId : UInt64) (window : CreditWindow) : Link :=
  ⟨.new streamId window, .new streamId window, [], [], []⟩

/-- What can happen on a link. -/
inductive Event where
  | transmit (bytes : ℕ)
  | arrive
  | maybeGrant
  | maybeGrantUnder (pressure : ClusterQueuePressure)
  | credit

namespace Link

/-- The receiver changes and the frame, if there is one, is sent. -/
def reply (l : Link) (out : FlowController × Option FlowControlFrame) : Link :=
  { l with receiver := out.1, grants := l.grants ++ (out.2.map (encodeFlowControlFrame digest)).toList }

def step (l : Link) : Event → Link
  | .transmit bytes =>
    match l.sender.consumeCredits bytes with
    | .ok sender => { l with sender, data := l.data ++ [bytes] }
    | .error _ => l
  | .arrive =>
    match l.data with
    | [] => l
    | bytes :: data =>
      match l.receiver.consumeCredits bytes with
      | .ok receiver => { l with receiver, data }
      | .error e => { l with data, refusals := l.refusals ++ [e] }
  | .maybeGrant => l.reply digest l.receiver.maybeSendCreditGrant
  | .maybeGrantUnder pressure => l.reply digest (l.receiver.maybeSendCreditGrantUnderClusterPressure pressure)
  | .credit =>
    match l.grants with
    | [] => l
    | raw :: grants =>
      match l.sender.receiveCreditGrant digest raw with
      | .ok (sender, _) => { l with sender, grants }
      | .error e => { l with grants, refusals := l.refusals ++ [e] }

def run (l : Link) (events : List Event) : Link := events.foldl (step digest) l

/-- What a frame under way grants. -/
def credited (raw : Bytes) : ℕ :=
  match decodeFlowControlFrame digest raw with
  | .ok (.creditGrant _ credits) => credits
  | _ => 0

/-- The receiver has what the sender has and what is under way. -/
def Balanced (l : Link) : Prop :=
  l.receiver.window.availableCredits =
    l.sender.window.availableCredits + l.data.sum + (l.grants.map (credited digest)).sum

/-- Kept by every step: besides the balance, that the frames under way are grants, and that
with one of them under way the receiver's window is not above its maximum. -/
structure Kept (max : ℕ) (l : Link) : Prop where
  balanced : l.Balanced digest
  senderMax : l.sender.window.maxWindowBytes = max
  receiverMax : l.receiver.window.maxWindowBytes = max
  granted : ∀ raw ∈ l.grants, ∃ id credits, credits < 2 ^ 64 ∧ raw = encodeFlowControlFrame digest (.creditGrant id credits)
  capped : l.grants ≠ [] → l.receiver.window.availableCredits ≤ max
  refusals : l.refusals = []

variable {digest} {max : ℕ} {l : Link}

theorem credited_encode {id : UInt64} {credits : ℕ} (h : credits < 2 ^ 64) :
    credited digest (encodeFlowControlFrame digest (.creditGrant id credits)) = credits := by
  unfold credited
  rw [decode_encode digest id h]

theorem consumeCredits_eq {c : FlowController} {bytes : ℕ} (h : bytes ≤ c.window.availableCredits) :
    c.consumeCredits bytes =
      .ok { c with window := { c.window with availableCredits := c.window.availableCredits - bytes } } := by
  rw [consumeCredits, consume, if_neg (not_lt.mpr h)]
  rfl

theorem Kept.transmit (h : Kept digest max l) (bytes : ℕ) : Kept digest max (l.step digest (.transmit bytes)) := by
  by_cases hle : bytes ≤ l.sender.window.availableCredits
  · have hbalanced := h.balanced
    unfold Balanced at hbalanced
    simp only [step, consumeCredits_eq hle]
    refine ⟨?_, h.senderMax, h.receiverMax, h.granted, h.capped, h.refusals⟩
    simp only [Balanced, sum_append, sum_singleton]
    omega
  · have herror : l.sender.consumeCredits bytes = .error .windowExhausted := by
      rw [consumeCredits, consume, if_pos (Nat.lt_of_not_le hle)]
      rfl
    simpa only [step, herror] using h

/-- The bytes that arrive are part of what the receiver has. -/
theorem Kept.arrive (h : Kept digest max l) : Kept digest max (l.step digest .arrive) := by
  unfold step
  cases hdata : l.data with
  | nil => exact h
  | cons bytes data =>
    have hbalanced := h.balanced
    rw [Balanced, hdata, sum_cons] at hbalanced
    simp only [consumeCredits_eq (show bytes ≤ l.receiver.window.availableCredits by omega)]
    refine ⟨?_, h.senderMax, h.receiverMax, h.granted, fun hne => ?_, h.refusals⟩
    · simp only [Balanced]
      omega
    · exact (Nat.sub_le _ _).trans (h.capped hne)

theorem Kept.reply (h : Kept digest max l) (hmax : max < 2 ^ 64) {out : FlowController × Option FlowControlFrame}
    (hout : l.receiver.Grants out) : Kept digest max (l.reply digest out) := by
  rcases hout with rfl | ⟨credits, hle, rfl⟩
  · rw [Link.reply, Option.map_none, Option.toList_none, append_nil]
    exact h
  · have hbalanced := h.balanced
    rw [h.receiverMax] at hle
    have hcredits : credits < 2 ^ 64 := by omega
    refine ⟨?_, h.senderMax, h.receiverMax, forall_mem_append.mpr ⟨h.granted,
      forall_mem_singleton.mpr ⟨_, credits, hcredits, rfl⟩⟩, fun _ => hle, h.refusals⟩
    simp only [Balanced, Link.reply, Option.map_some, Option.toList_some, map_append, sum_append,
      map_singleton, sum_singleton, credited_encode hcredits] at hbalanced ⊢
    omega

/-- A grant fits into the sender's window: with it the sender has no more than the receiver. -/
theorem Kept.credit (h : Kept digest max l) : Kept digest max (l.step digest .credit) := by
  unfold step
  cases hgrants : l.grants with
  | nil => exact h
  | cons raw grants =>
    have hbalanced := h.balanced
    have hcapped := h.capped (by rw [hgrants]; exact cons_ne_nil _ _)
    obtain ⟨id, credits, hcredits, rfl⟩ := h.granted raw (hgrants ▸ mem_cons_self)
    rw [Balanced, hgrants, map_cons, sum_cons, credited_encode hcredits] at hbalanced
    have hfits : min credits (l.sender.window.maxWindowBytes - l.sender.window.availableCredits) = credits := by
      rw [h.senderMax]
      omega
    have hreceive : l.sender.receiveCreditGrant digest (encodeFlowControlFrame digest (.creditGrant id credits)) =
        .ok ({ l.sender with
          window := { l.sender.window with availableCredits := l.sender.window.availableCredits + credits },
          lastReceivedGrantSeq := l.sender.nextGrantSeq }, .creditGrant id credits) := by
      rw [receiveCreditGrant, decode_encode digest id hcredits]
      show Except.ok (_, _) = _
      simp only [grant, hfits]
    simp only [hreceive]
    refine ⟨?_, h.senderMax, h.receiverMax, fun raw hraw => ?_, fun _ => hcapped, h.refusals⟩
    · simp only [Balanced]
      omega
    · exact h.granted raw (hgrants ▸ mem_cons_of_mem _ hraw)

theorem Kept.step (h : Kept digest max l) (hmax : max < 2 ^ 64) (event : Event) :
    Kept digest max (l.step digest event) := by
  cases event with
  | transmit bytes => exact h.transmit bytes
  | arrive => exact h.arrive
  | maybeGrant => exact h.reply hmax l.receiver.maybeSendCreditGrant_grants
  | maybeGrantUnder pressure => exact h.reply hmax (l.receiver.maybeSendCreditGrantUnderClusterPressure_grants pressure)
  | credit => exact h.credit

theorem Kept.run (hmax : max < 2 ^ 64) : ∀ {l : Link} (events : List Event), Kept digest max l →
    Kept digest max (l.run digest events)
  | _, [], h => h
  | _, event :: events, h => Kept.run hmax events (h.step hmax event)

theorem kept_start (streamId : UInt64) (window : CreditWindow) :
    Kept digest window.maxWindowBytes (start streamId window) :=
  ⟨by simp [Balanced, start, new], rfl, rfl, fun _ h => absurd h not_mem_nil,
    fun h => absurd rfl h, rfl⟩

variable (digest) in
/-- **The credits balance, and nothing that arrives is refused**, whatever the window, the
order of events and the pressures. -/
theorem run_balanced (streamId : UInt64) (window : CreditWindow) (hmax : window.maxWindowBytes < 2 ^ 64)
    (events : List Event) : ((start streamId window).run digest events).Balanced digest ∧
      ((start streamId window).run digest events).refusals = [] := by
  have hkept := (@kept_start digest streamId window).run hmax events
  exact ⟨hkept.balanced, hkept.refusals⟩

/-- A window of ten: eight bytes are sent and arrive, a grant under pressure follows. -/
theorem run_balanced_ten : ∃ l : Link, (l.receiver.window.availableCredits, l.grants.length) = (5, 1) ∧
      l.Balanced (fun _ _ => Vector.replicate 32 0) ∧ l.refusals = [] :=
  ⟨_, rfl, run_balanced (fun _ _ => Vector.replicate 32 0) 1 ⟨10, 6, 10⟩ (by decide)
    [.transmit 8, .arrive, .maybeGrantUnder .softPressure, .transmit 1]⟩

end Link

/-! ### Frames from the wire -/

namespace FlowController

/-- The credits that raw frames add to the window, each after some bytes were consumed. -/
def creditsAdded (c : FlowController) : List (ℕ × Bytes) → ℕ
  | [] => 0
  | (bytes, raw) :: rest =>
    let c := (c.consumeCredits bytes).toOption.getD c
    match c.receiveCreditGrant digest raw with
    | .ok (c', _) => c'.window.availableCredits - c.window.availableCredits + c'.creditsAdded rest
    | .error _ => c.creditsAdded rest

/-- The grants among the frames, with their streams. -/
def grantsIn (frames : List (ℕ × Bytes)) : List (UInt64 × ℕ) :=
  frames.filterMap fun f =>
    match decodeFlowControlFrame digest f.2 with
    | .ok (.creditGrant id credits) => some (id, credits)
    | _ => none

/-- Each grant adds its credits at most. -/
theorem creditsAdded_le : ∀ (frames : List (ℕ × Bytes)) (c : FlowController),
    c.creditsAdded digest frames ≤ ((grantsIn digest frames).map Prod.snd).sum
  | [], _ => le_rfl
  | (bytes, raw) :: rest, c => by
    rw [creditsAdded, grantsIn, filterMap_cons, receiveCreditGrant]
    cases decodeFlowControlFrame digest raw with
    | error e => exact creditsAdded_le rest _
    | ok frame =>
      cases frame with
      | creditRequest id requested =>
        show _ - _ + _ ≤ _
        rw [Nat.sub_self, Nat.zero_add]
        exact creditsAdded_le rest _
      | creditGrant id credits =>
        refine Nat.add_le_add ?_ (creditsAdded_le rest _)
        simp [grant]

/-- **What is added to a window was issued**, if no grant comes twice and none is of another stream. -/
theorem creditsAdded_le_issued (c : FlowController) (frames : List (ℕ × Bytes)) (issued : List ℕ)
    (h : (grantsIn digest frames).Subperm (issued.map fun credits => (c.streamId, credits))) :
    c.creditsAdded digest frames ≤ issued.sum := by
  obtain ⟨grants, hperm, hsub⟩ := h
  have hsum := (hsub.map Prod.snd).sum_le_sum fun _ _ => Nat.zero_le _
  rw [(hperm.map _).sum_eq, map_map, map_id''] at hsum
  · exact (creditsAdded_le digest frames c).trans hsum
  · exact fun _ => rfl

theorem creditsAdded_le_issued_twice :
    (new 1 ⟨10, 6, 0⟩).creditsAdded (fun _ _ => Vector.replicate 32 0)
      ([4, 3].map fun n => (2, encodeFlowControlFrame (fun _ _ => Vector.replicate 32 0) (.creditGrant 1 n))) ≤ 7 :=
  creditsAdded_le_issued _ (new 1 ⟨10, 6, 0⟩) _ [4, 3] (.refl [(1, 4), (1, 3)])

/-- A grant of four that comes twice adds eight, and one of another stream is added too. -/
theorem replayed_grant_is_added : let digest := fun _ _ => Vector.replicate 32 0
    let raw := encodeFlowControlFrame digest (.creditGrant 1 4)
    (new 1 ⟨10, 6, 0⟩).creditsAdded digest [(0, raw), (0, raw)] = 8 ∧
      (new 2 ⟨10, 6, 0⟩).creditsAdded digest [(0, raw)] = 4 := ⟨rfl, rfl⟩

end FlowController

end Tidefs.FlowControl
