import Cornflakes.Registry
import Cornflakes.Flexrpc.Reply
import Cornflakes.Flexrpc.Cmsg

/-!
# Serialising and deserialising a message (`cornflake.c`)

The schema of a call is looked up in the registry and called through the pointer that the lookup returned, NULL
included (`callProc`).
-/

set_option autoImplicit false

namespace Cornflakes

open Wire Flexrpc

variable {σ α : Type}

/-- `struct CFLAKE`: the record of a message and what `args` points to. -/
structure Cflake (σ α : Type) where
  msg : RpcMsg σ α
  args : α

def Cflake.setMsg (cf : Cflake σ α) (msg : RpcMsg σ α) : Cflake σ α := { cf with msg := msg }

def Cflake.setArgs (cf : Cflake σ α) (args : α) : Cflake σ α := { cf with args := args }

@[simp] theorem Cflake.msg_setMsg (cf : Cflake σ α) (msg : RpcMsg σ α) : (cf.setMsg msg).msg = msg := rfl

def cornflakePeekHeader (X : Flexxdr σ) (cf : Cflake σ α) : Except Fault (Outcome σ (Cflake σ α)) :=
  andThen (onField (flexxdrULong X cf.msg.rmXid) fun xid => cf.setMsg (cf.msg.setRmXid xid)) fun X cf =>
    onField (flexxdrEnum X cf.msg.rmDirection) fun d => cf.setMsg (cf.msg.setRmDirection d)

/-- The client's half of `cornflake_serialize`. -/
def serializeCall (R : Registry σ α) (X : Flexxdr σ) (cf : Cflake σ α) : Except Fault (Outcome σ (Cflake σ α)) :=
  andThen (onField (flexxdrCallhdr X cf.msg) cf.setMsg) fun X cf => do
    let schema := cornflakeGetSchema R cf.msg.cbProg cf.msg.cbVers cf.msg.cbProc MsgType.call
    -- `(!PUTLONG) || (!schema)` guards an empty block: both results are dropped.
    let (ok, X) ← flexxdrPutlong X cf.msg.cbProc
    if !ok then return (true, cf, X)
    let (_, args, X) ← callProc schema X cf.args
    return (true, cf.setArgs args, X)

/-- The server's half of `cornflake_serialize`; the result of `cornflake_peek_header` is dropped. -/
def serializeReply (X : Flexxdr σ) (cf : Cflake σ α) : Except Fault (Outcome σ (Cflake σ α)) := do
  let (_, cf, X) ← cornflakePeekHeader X cf
  onField (flexxdrReplymsg X cf.msg) cf.setMsg

def cornflakeSerialize (R : Registry σ α) (X : Flexxdr σ) (cf : Cflake σ α) : Except Fault (Outcome σ (Cflake σ α)) :=
  if cf.msg.rmDirection = MsgType.call then serializeCall R X cf
  else if cf.msg.rmDirection = MsgType.reply then serializeReply X cf
  else .ok (false, cf, X)

/-- The schema that the call branch of `cornflake_deserialize` is about to call, with the handle and the record at that
point; the result of `flexxdr_callmsg` guards an empty block and is dropped. -/
def selectSchema (R : Registry σ α) (X : Flexxdr σ) (cf : Cflake σ α) :
    Except Fault (Option (FlexxdrProc σ α) × Cflake σ α × Flexxdr σ) := do
  let (_, cmsg, X) ← flexxdrCallmsg X cf.msg
  return (cornflakeGetSchema R cmsg.cbProg cmsg.cbVers cmsg.cbProc cmsg.rmDirection, cf.setMsg cmsg, X)

/-- The second `if` of `cornflake_deserialize` and the end of the function. -/
def deserializeReply (X : Flexxdr σ) (cf : Cflake σ α) : Except Fault (Outcome σ (Cflake σ α)) :=
  if cf.msg.rmDirection = MsgType.reply then onField (flexxdrReplymsg X cf.msg) cf.setMsg
  else .ok (true, cf, X)

def cornflakeDeserialize (R : Registry σ α) (X : Flexxdr σ) (cf : Cflake σ α) :
    Except Fault (Outcome σ (Cflake σ α)) :=
  andThen (cornflakePeekHeader X cf) fun X cf =>
    if cf.msg.rmDirection = MsgType.call then do
      let (schema, cf, X) ← selectSchema R X cf
      andThen (onField (callProc schema X cf.args) cf.setArgs) deserializeReply
    else deserializeReply X cf

end Cornflakes
