import Cornflakes.Flexrpc.Stream

/-!
# RPC messages (`flexrpc_msg.h`)

`call_body` and `reply_body` share the storage of one union, and so do the versions and the results of a reply. The
union is four 64-bit places:

- `cb_rpcvers`, or `rp_stat` in the low half;
- `cb_prog`, or `ar_stat` (`rj_stat`) in the low half;
- `cb_vers`, or the `low` of the versions, or the `where` of the results;
- `cb_proc`, or the `high` of the versions, or the `proc` of the results.

The last two places hold what was stored last, a word or a pointer (`Slot`). A pointer read as a word gives its
address; a word is nothing to call, and as an argument it points to nothing (`FlexxdrProc.onSlot`).
-/

set_option autoImplicit false

namespace Cornflakes.Flexrpc

open Wire

variable {σ α : Type}

def flexrpcMsgVersion : ULong := 8

/-! ## Enumerations

A field of an `enum` type holds whatever word was decoded into it. Listed are the values that the code tells apart. -/

def MsgType.call : Word := 0
def MsgType.reply : Word := 1

def ReplyStat.msgAccepted : Word := 0
def ReplyStat.msgDenied : Word := 1

def AcceptStat.success : Word := 0
def AcceptStat.progMismatch : Word := 2

def RejectStat.rpcMismatch : Word := 0

/-- An `enum` stored in the low half of a place. -/
def setLow (place : ULong) (e : Word) : ULong := place.extractLsb' 32 32 ++ e

@[simp] theorem setWidth_setLow (place : ULong) (e : Word) : (setLow place e).setWidth 32 = e := by
  apply BitVec.eq_of_getLsbD_eq
  intro i hi
  simp only [setLow, BitVec.getLsbD_setWidth, BitVec.getLsbD_append]
  grind

@[simp] theorem setLow_setWidth (place : ULong) : setLow place (place.setWidth 32) = place := by
  apply BitVec.eq_of_getLsbD_eq
  intro i hi
  simp only [setLow, BitVec.getLsbD_setWidth, BitVec.getLsbD_append, BitVec.getLsbD_extractLsb']
  grind

/-! ## Places that an integer and a pointer share -/

/-- A pointer to results comes with what it points to. -/
inductive Slot (σ α : Type)
  | word (w : ULong)
  | ptr (addr : ULong) (target : α)
  | proc (p : FlexxdrProc σ α)

namespace Slot

/-- The place read as an integer. -/
def toWord : Slot σ α → ULong
  | .word w => w
  | .ptr addr _ => addr
  | .proc p => p.addr

/-- An integer stored in the place; storing the one that is there changes nothing. -/
def store (s : Slot σ α) (w : ULong) : Slot σ α := if s.toWord = w then s else .word w

@[simp] theorem toWord_store (s : Slot σ α) (w : ULong) : (s.store w).toWord = w := by
  unfold store
  split
  · assumption
  · rfl

@[simp] theorem store_toWord (s : Slot σ α) : s.store s.toWord = s := if_pos rfl

/-- The place holds an integer. -/
def IsWord (s : Slot σ α) : Prop := ∃ w, s = .word w

theorem IsWord.store {s : Slot σ α} (h : s.IsWord) (w : ULong) : (s.store w).IsWord := by
  unfold Slot.store
  split
  · exact h
  · exact ⟨w, rfl⟩

end Slot

/-- The procedure when its argument is what the place holds, whatever that is. -/
def FlexxdrProc.onSlot (p : FlexxdrProc σ α) : FlexxdrProc σ (Slot σ α) where
  addr := p.addr
  code X
    | .ptr addr a => onField (p.code X a) (.ptr addr ·)
    | place => onField (p.stray X place.toWord) fun _ => place
  stray := p.stray

theorem onSlot_ptr (p : FlexxdrProc σ α) (X : Flexxdr σ) (addr : ULong) (a : α) :
    p.onSlot.code X (.ptr addr a) = onField (p.code X a) (.ptr addr ·) := rfl

theorem onSlot_word (p : FlexxdrProc σ α) (X : Flexxdr σ) (w : ULong) :
    p.onSlot.code X (.word w) = onField (p.stray X w) fun _ => .word w := rfl

theorem onSlot_proc (p q : FlexxdrProc σ α) (X : Flexxdr σ) :
    p.onSlot.code X (.proc q) = onField (p.stray X q.addr) fun _ => .proc q := rfl

/-! ## Replies -/

/-- The storage of `struct accepted_reply` and of `struct rejected_reply`: the status, then the versions or the
results. -/
structure ReplyBody (σ α : Type) where
  status : ULong
  low : Slot σ α
  high : Slot σ α

namespace ReplyBody

variable (ar : ReplyBody σ α)

/-- `ar_stat` and `rj_stat`. -/
def stat : Word := ar.status.setWidth 32

def setStat (e : Word) : ReplyBody σ α := { ar with status := setLow ar.status e }

/-- `ar_vers.low` and `rj_vers.low`. -/
def versLow : ULong := ar.low.toWord

def setVersLow (v : ULong) : ReplyBody σ α := { ar with low := ar.low.store v }

/-- `ar_vers.high` and `rj_vers.high`. -/
def versHigh : ULong := ar.high.toWord

def setVersHigh (v : ULong) : ReplyBody σ α := { ar with high := ar.high.store v }

@[simp] theorem stat_setStat (e : Word) : (ar.setStat e).stat = e := setWidth_setLow _ _

@[simp] theorem low_setStat (e : Word) : (ar.setStat e).low = ar.low := rfl

@[simp] theorem high_setStat (e : Word) : (ar.setStat e).high = ar.high := rfl

@[simp] theorem stat_setVersLow (v : ULong) : (ar.setVersLow v).stat = ar.stat := rfl

@[simp] theorem versLow_setVersLow (v : ULong) : (ar.setVersLow v).versLow = v := Slot.toWord_store _ _

@[simp] theorem high_setVersLow (v : ULong) : (ar.setVersLow v).high = ar.high := rfl

@[simp] theorem stat_setVersHigh (v : ULong) : (ar.setVersHigh v).stat = ar.stat := rfl

@[simp] theorem versLow_setVersHigh (v : ULong) : (ar.setVersHigh v).versLow = ar.versLow := rfl

@[simp] theorem versHigh_setVersHigh (v : ULong) : (ar.setVersHigh v).versHigh = v := Slot.toWord_store _ _

@[simp] theorem setStat_stat : ar.setStat ar.stat = ar := by
  simp only [setStat, stat, setLow_setWidth]

@[simp] theorem setVersLow_versLow : ar.setVersLow ar.versLow = ar := by
  simp only [setVersLow, versLow, Slot.store_toWord]

@[simp] theorem setVersHigh_versHigh : ar.setVersHigh ar.versHigh = ar := by
  simp only [setVersHigh, versHigh, Slot.store_toWord]

end ReplyBody

/-! ## Messages -/

/-- `struct rpc_msg`; `rpHead` is the first place of the union. -/
structure RpcMsg (σ α : Type) where
  rmXid : ULong
  rmDirection : Word
  rpHead : ULong
  body : ReplyBody σ α

namespace RpcMsg

/-- A record in storage that was set to zeros. -/
def zeros : RpcMsg σ α := ⟨0, 0, 0, ⟨0, .word 0, .word 0⟩⟩

variable (m : RpcMsg σ α)

def setRmXid (xid : ULong) : RpcMsg σ α := { m with rmXid := xid }

def setRmDirection (d : Word) : RpcMsg σ α := { m with rmDirection := d }

def cbRpcvers : ULong := m.rpHead

def setCbRpcvers (v : ULong) : RpcMsg σ α := { m with rpHead := v }

def cbProg : ULong := m.body.status

def setCbProg (v : ULong) : RpcMsg σ α := { m with body := { m.body with status := v } }

def cbVers : ULong := m.body.low.toWord

def setCbVers (v : ULong) : RpcMsg σ α := { m with body := { m.body with low := m.body.low.store v } }

def cbProc : ULong := m.body.high.toWord

def setCbProc (v : ULong) : RpcMsg σ α := { m with body := { m.body with high := m.body.high.store v } }

def rpStat : Word := m.rpHead.setWidth 32

def setRpStat (e : Word) : RpcMsg σ α := { m with rpHead := setLow m.rpHead e }

def setBody (ru : ReplyBody σ α) : RpcMsg σ α := { m with body := ru }

@[simp] theorem rmDirection_setRmDirection (d : Word) : (m.setRmDirection d).rmDirection = d := rfl

@[simp] theorem setRmXid_rmXid : m.setRmXid m.rmXid = m := rfl

@[simp] theorem setRmDirection_rmDirection : m.setRmDirection m.rmDirection = m := rfl

@[simp] theorem setCbRpcvers_cbRpcvers : m.setCbRpcvers m.cbRpcvers = m := rfl

@[simp] theorem setCbProg_cbProg : m.setCbProg m.cbProg = m := rfl

@[simp] theorem setCbVers_cbVers : m.setCbVers m.cbVers = m := by
  simp only [setCbVers, cbVers, Slot.store_toWord]

@[simp] theorem setCbProc_cbProc : m.setCbProc m.cbProc = m := by
  simp only [setCbProc, cbProc, Slot.store_toWord]

@[simp] theorem cbProg_setCbVers (v : ULong) : (m.setCbVers v).cbProg = m.cbProg := rfl

@[simp] theorem cbProg_setCbProc (v : ULong) : (m.setCbProc v).cbProg = m.cbProg := rfl

@[simp] theorem cbProg_setCbProg (v : ULong) : (m.setCbProg v).cbProg = v := rfl

@[simp] theorem cbVers_setCbProc (v : ULong) : (m.setCbProc v).cbVers = m.cbVers := rfl

@[simp] theorem cbVers_setCbVers (v : ULong) : (m.setCbVers v).cbVers = v := Slot.toWord_store _ _

@[simp] theorem cbProc_setCbProc (v : ULong) : (m.setCbProc v).cbProc = v := Slot.toWord_store _ _

@[simp] theorem rpStat_setRpStat (e : Word) : (m.setRpStat e).rpStat = e := setWidth_setLow _ _

@[simp] theorem rpStat_setBody (ru : ReplyBody σ α) : (m.setBody ru).rpStat = m.rpStat := rfl

@[simp] theorem setRpStat_rpStat : m.setRpStat m.rpStat = m := by
  simp only [setRpStat, rpStat, setLow_setWidth]

end RpcMsg

end Cornflakes.Flexrpc
