import Cornflakes.Flexrpc.Msg
import Cornflakes.Flexrpc.Xdr

/-!
# Replies and call headers (`flexrpc_prot.c`)

The codecs of a reply, an accepted or a rejected one, and `flexxdrCallhdr`, which encodes the part of a call header that
does not depend on the procedure. Into a memory stream it writes five words (`callhdr_puts`) if its three checked fields
fit and there is room, and else it is refused (`callhdr_short`, `callhdr_refuses`).
-/

set_option autoImplicit false

namespace Cornflakes.Flexrpc

open Wire

variable {σ α : Type}

/-- The two codecs for the bounds of a mismatch, `low && high`. -/
def flexxdrVersions (X : Flexxdr σ) (ar : ReplyBody σ α) : Except Fault (Outcome σ (ReplyBody σ α)) :=
  andThen (onField (flexxdrULong X ar.versLow) ar.setVersLow) fun X ar =>
    onField (flexxdrULong X ar.versHigh) ar.setVersHigh

/-- `ar->ar_results.proc (flexxdrs, ar->ar_results.where)`. -/
def flexxdrResults (X : Flexxdr σ) (ar : ReplyBody σ α) : Except Fault (Outcome σ (ReplyBody σ α)) :=
  match ar.high with
  | .proc p => onField (callProc (some p.onSlot) X ar.low) fun place => { ar with low := place }
  | _ => .error .wildProc

/-- The `switch` of `flexxdr_accepted_reply`. -/
def acceptedArm (X : Flexxdr σ) (ar : ReplyBody σ α) : Except Fault (Outcome σ (ReplyBody σ α)) :=
  if ar.stat = AcceptStat.success then flexxdrResults X ar
  else if ar.stat = AcceptStat.progMismatch then flexxdrVersions X ar
  else .ok (true, ar, X)

def flexxdrAcceptedReply (X : Flexxdr σ) (ar : ReplyBody σ α) : Except Fault (Outcome σ (ReplyBody σ α)) :=
  andThen (onField (flexxdrEnum X ar.stat) ar.setStat) acceptedArm

/-- The `switch` of `flexxdr_rejected_reply` and the end of the function. -/
def rejectedArm (X : Flexxdr σ) (rr : ReplyBody σ α) : Except Fault (Outcome σ (ReplyBody σ α)) :=
  if rr.stat = RejectStat.rpcMismatch then flexxdrVersions X rr else .ok (false, rr, X)

def flexxdrRejectedReply (X : Flexxdr σ) (rr : ReplyBody σ α) : Except Fault (Outcome σ (ReplyBody σ α)) :=
  andThen (onField (flexxdrEnum X rr.stat) rr.setStat) rejectedArm

def replyDscrm : List (FlexxdrDiscrim σ (ReplyBody σ α)) :=
  [⟨ReplyStat.msgAccepted, some flexxdrAcceptedReply⟩, ⟨ReplyStat.msgDenied, some flexxdrRejectedReply⟩, ⟨-1, none⟩]

def flexxdrReplymsg (X : Flexxdr σ) (rmsg : RpcMsg σ α) : Except Fault (Outcome σ (RpcMsg σ α)) :=
  if rmsg.rmDirection = MsgType.reply then
    onField (flexxdrUnion X rmsg.rpStat rmsg.body replyDscrm none) fun (stat, ru) => (rmsg.setRpStat stat).setBody ru
  else .ok (false, rmsg, X)

/-! ## Call headers -/

/-- The record as `flexxdr_callhdr` has prepared it when it starts to encode. -/
def callhdrMsg (cmsg : RpcMsg σ α) : RpcMsg σ α := (cmsg.setRmDirection MsgType.call).setCbRpcvers flexrpcMsgVersion

/-- The codecs of `flexxdr_callhdr`. -/
def callhdrFields (X : Flexxdr σ) (cmsg : RpcMsg σ α) : Except Fault (Outcome σ (RpcMsg σ α)) :=
  andThen (onField (flexxdrULong X cmsg.rmXid) cmsg.setRmXid) fun X cmsg =>
  andThen (onField (flexxdrEnum X cmsg.rmDirection) cmsg.setRmDirection) fun X cmsg =>
  andThen (onField (flexxdrULong X cmsg.cbRpcvers) cmsg.setCbRpcvers) fun X cmsg =>
  andThen (onField (flexxdrULong X cmsg.cbProg) cmsg.setCbProg) fun X cmsg =>
    onField (flexxdrULong X cmsg.cbVers) cmsg.setCbVers

def flexxdrCallhdr (X : Flexxdr σ) (cmsg : RpcMsg σ α) : Except Fault (Outcome σ (RpcMsg σ α)) :=
  if X.fOp = .encode then callhdrFields X (callhdrMsg cmsg) else .ok (false, callhdrMsg cmsg, X)

/-! ## Encoding a call header -/

section Callhdr

variable {m : RpcMsg FlexxdrMem α}

/-- The fields that the encoder checks fit in words. -/
def RpcMsg.HeaderFits (m : RpcMsg σ α) : Prop :=
  m.rmXid.toNat < 2 ^ 32 ∧ m.cbProg.toNat < 2 ^ 32 ∧ m.cbVers.toNat < 2 ^ 32

/-- The words that `flexxdr_callhdr` writes. -/
def RpcMsg.headerWords (m : RpcMsg σ α) : List Word :=
  [m.rmXid.setWidth 32, MsgType.call, 8, m.cbProg.setWidth 32, m.cbVers.setWidth 32]

theorem version_fits : flexrpcMsgVersion.toNat < 2 ^ 32 := by decide

theorem callhdr_puts (h : m.HeaderFits) :
    Puts (memStrm .encode) (fun X => flexxdrCallhdr X m) (callhdrMsg m) (words m.headerWords) := by
  obtain ⟨hx, hp, hv⟩ := h
  have hf : Puts (memStrm .encode) (fun X => callhdrFields X (callhdrMsg m)) (callhdrMsg m) (words m.headerWords) :=
    Puts.field (uLong_puts hx) (RpcMsg.setRmXid_rmXid _) <|
    Puts.field (enum_puts _) (RpcMsg.setRmDirection_rmDirection _) <|
    Puts.field (uLong_puts version_fits) (RpcMsg.setCbRpcvers_cbRpcvers _) <|
    Puts.field (uLong_puts hp) (RpcMsg.setCbProg_cbProg _) <|
    Puts.last (uLong_puts hv) (RpcMsg.setCbVers_cbVers _)
  exact hf

theorem callhdr_short (h : m.HeaderFits) :
    Short (memStrm .encode) (fun X => flexxdrCallhdr X m) (callhdrMsg m) 20 := by
  obtain ⟨hx, hp, hv⟩ := h
  have hf : Short (memStrm .encode) (fun X => callhdrFields X (callhdrMsg m)) (callhdrMsg m) 20 :=
    Short.field (uLong_puts hx) (uLong_puts_short _) (RpcMsg.setRmXid_rmXid _) <|
    Short.field (enum_puts _) (enum_puts_short _) (RpcMsg.setRmDirection_rmDirection _) <|
    Short.field (uLong_puts version_fits) (uLong_puts_short _) (RpcMsg.setCbRpcvers_cbRpcvers _) <|
    Short.field (uLong_puts hp) (uLong_puts_short _) (RpcMsg.setCbProg_cbProg _) <|
    Short.last (uLong_puts_short _) (RpcMsg.setCbVers_cbVers _)
  exact hf

/-- A field that does not fit is refused, wherever the stream is. -/
theorem callhdr_refuses (h : ¬ m.HeaderFits) :
    Refuses (memStrm .encode) (fun X => flexxdrCallhdr X m) (callhdrMsg m) := by
  have hf : Refuses (memStrm .encode) (fun X => callhdrFields X (callhdrMsg m)) (callhdrMsg m) := by
    by_cases hx : m.rmXid.toNat < 2 ^ 32
    · refine Refuses.rest (uLong_puts hx) (uLong_puts_short _) (RpcMsg.setRmXid_rmXid _) ?_
      refine Refuses.rest (enum_puts _) (enum_puts_short _) (RpcMsg.setRmDirection_rmDirection _) ?_
      refine Refuses.rest (uLong_puts version_fits) (uLong_puts_short _) (RpcMsg.setCbRpcvers_cbRpcvers _) ?_
      by_cases hp : m.cbProg.toNat < 2 ^ 32
      · refine Refuses.rest (uLong_puts hp) (uLong_puts_short _) (RpcMsg.setCbProg_cbProg _) ?_
        exact Refuses.last (uLong_refuses fun hv => h ⟨hx, hp, hv⟩) (RpcMsg.setCbVers_cbVers _)
      · exact Refuses.field (uLong_refuses hp) (RpcMsg.setCbProg_cbProg _)
    · exact Refuses.field (uLong_refuses hx) (RpcMsg.setRmXid_rmXid _)
  exact hf

end Callhdr

end Cornflakes.Flexrpc
