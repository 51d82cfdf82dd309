import Libnfs.Context

/-! `rpc_write_to_socket`: gather the unsent bytes of the out queue into one `writev`, then
account for what the kernel took. -/
namespace Libnfs

/-- `RPC_FAST_VECTORS` and `RPC_MAX_VECTORS` -/
def fastVectors : ℕ := 8
def maxVectors : ℕ := 1024

/-- The vectors gathered so far and `last_buf`, the address just behind the last of them. -/
structure Gather where
  vecs : List OutVec := []
  lastBuf : Option ℕ := none
  deriving DecidableEq, Repr

namespace Gather

def bytes (g : Gather) : List UInt8 := g.vecs.flatMap OutVec.data

/-- Lengthen the last vector by bytes that lie right behind it in memory. -/
def extend : List OutVec → List UInt8 → List OutVec
  | [], _ => []
  | [v], bs => [⟨v.buf,v.data++bs⟩]
  | v::w::vs, bs => v::extend (w::vs) bs

/-- The loop over one PDU's vectors, with `numDone` bytes still to be passed over and room
for `cap` vectors. -/
def gatherIov (cap : ℕ) : Gather → ℕ → List OutVec → Gather
  | g, _, [] => g
  | g, numDone, v::vs =>
    if v.data.length ≤ numDone then gatherIov cap g (numDone-v.data.length) vs
    else
      let buf := v.buf+numDone
      let data := v.data.drop numDone
      if g.lastBuf ≠ some buf then
        if cap ≤ g.vecs.length+1 then { g with vecs := g.vecs ++ [⟨buf,data⟩] }
        else gatherIov cap ⟨g.vecs ++ [⟨buf,data⟩],some (buf+data.length)⟩ 0 vs
      else gatherIov cap ⟨extend g.vecs data,some (buf+data.length)⟩ 0 vs

/-- The do-while loop over the PDUs, `numPdus` of which have been gathered. -/
def gather (cap limit waitpduLen : ℕ) : Gather → ℕ → List Pdu → Gather
  | g, _, [] => g
  | g, numPdus, p::ps =>
    let g := gatherIov cap g p.numDone p.out
    if (limit = 0 ∨ waitpduLen+(numPdus+1) < limit) ∧ g.vecs.length < cap then
      gather cap limit waitpduLen g (numPdus+1) ps
    else g

end Gather

/-- What `writev` returns. -/
inductive Writev
  | wrote (count : ℕ) | again | error

namespace Rpc

/-- The accounting loop over the out queue `q`, with `count` bytes to account for. `true` says
that a PDU was discarded after sending, where the function returns at once. -/
def account (rpc : Rpc) : ℕ → List Pdu → Rpc × Bool
  | _, [] => ({ rpc with outqueue := [] },false)
  | 0, p::ps => ({ rpc with outqueue := p::ps },false)
  | count+1, p::ps =>
    let remaining := p.totalSize-p.numDone
    if remaining ≤ count+1 then
      if p.discardAfterSending then ({ rpc with outqueue := ps },true)
      else (rpc.enqueueWait { p with numDone := p.totalSize }).account (count+1-remaining) ps
    else ({ rpc with outqueue := { p with numDone := p.numDone+(count+1) }::ps },false)

/-- The bound on `iovcnt` in one turn: it grows to `RPC_MAX_VECTORS` when the head needs it and
memory allows, and stays there. -/
def growVectors (rpc : Rpc) (cap : ℕ) (p : Pdu) : ℕ :=
  if cap < p.out.length ∧ cap ≠ maxVectors ∧ rpc.memOk then maxVectors else cap

/-- The loop of `rpc_write_to_socket`; `false` is a return of -1. -/
def writeLoop (rpc : Rpc) (cap : ℕ) : List Writev → Rpc × Bool
  | [] => (rpc,true)
  | w::ws =>
    if rpc.maxWaitpduLen = 0 ∨ rpc.waitpduLen < rpc.maxWaitpduLen then
      match rpc.outqueue with
      | [] => (rpc,true)
      | p::ps =>
        let cap := rpc.growVectors cap p
        let bytes := (Gather.gather cap rpc.maxWaitpduLen rpc.waitpduLen {} 0 (p::ps)).bytes
        match w with
        | .again => (rpc,true)
        | .error => (rpc,false)
        | .wrote count =>
          let count := min count bytes.length
          let r := ({ rpc with sent := rpc.sent ++ bytes.take count } : Rpc).account count (p::ps)
          if r.2 then (r.1,true) else r.1.writeLoop cap ws
    else (rpc,true)

/-- `rpc_write_to_socket`; `false` is a return of -1. -/
def rpcWriteToSocket (rpc : Rpc) (ws : List Writev) : Rpc × Bool :=
  if rpc.socketDisabled then (rpc,true)
  else if rpc.fd = false then (rpc,false)
  else rpc.writeLoop fastVectors ws

end Rpc
end Libnfs
