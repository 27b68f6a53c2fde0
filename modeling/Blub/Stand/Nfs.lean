import Blub.Lib.Bytes
import Blub.Lib.Trace
import Blub.Stand.Net
import Blub.Stand.ReadAhead

/-! Reading files over NFS, from `rpc.c` and `nfs.c`. The calls that were sent are kept beside the
state of the program: the network delivers answers to any of them, in any order and any number of
times. What a buffer on the stack holds before it is used is a parameter. -/
namespace Blub.Stand
open Blub.Trace Blub.Bytes

def ebadrpc : ℤ := 72
def pmapprog : ℕ := 100000
def pmapport : ℤ := 111
def pmapNum : ℕ := 8
def nfsProg : ℕ := 100003
def nfsVer2 : ℕ := 2
def nfsreadMinSize : ℕ := 1024
def nfsreadMaxSize : ℕ := 4096
/-- `sizeof(struct rpc_reply)`. -/
def rpcReplySize : ℕ := 24
/-- `offsetof(struct nfs_read_repl, data[0])`. -/
def nfsReadHlen : ℕ := 76

/-- What is called. Nothing is said about the answers to `other` calls. -/
inductive Proc
  | getport (prog vers : ℕ)
  | read (fh : List UInt8) (off len : ℕ)
  | other

/-- A call to a port of the server. The number is cut to a word on the wire. -/
structure Request where
  xid : ℕ
  destport : ℕ
  proc : Proc

/-- What a server makes of a call. -/
inductive Answer
  | ok (count : ℕ) (rest : List UInt8)
  | status (e : ℕ) (rest : List UInt8)
  | verified (authlen : ℕ) (rest : List UInt8)
  | failed (status : ℕ) (rest : List UInt8)
  | denied (astatus : ℕ) (rest : List UInt8)

section Server

/-- A word that is not 0. -/
def nonzero (n : ℕ) : ℕ := n%(2^32-1)+1

/-- The number of bytes a server returns: at least one before the end of the file. -/
def served (file : List UInt8) (off len count : ℕ) : ℕ := min (max count 1) (min len (file.length-off))

/-- The attributes of a file, not looked at. -/
def attributes (rest : List UInt8) : List UInt8 := (List.range 68).map (ofList rest)

/-- The part of an answer after the header. -/
def okBody (files : List UInt8 → List UInt8) (count : ℕ) (rest : List UInt8) : Proc → List UInt8
  | .getport _ _ => be32 (count%65536)
  | .read fh off len =>
    let n := served (files fh) off len count
    be32 0 ++ (attributes rest ++ (be32 n ++ (((files fh).drop off).take n ++ List.replicate ((4-n%4)%4) 0)))
  | .other => rest

def statusBody (e : ℕ) (rest : List UInt8) : Proc → List UInt8
  | .getport _ _ => be32 0
  | .read _ _ _ => be32 (nonzero e) ++ rest
  | .other => rest

/-- The datagram with the answer to a call. -/
def answer (files : List UInt8 → List UInt8) (q : Request) : Answer → List UInt8
  | .ok count rest => be32 q.xid ++ (be32 1 ++ (be32 0 ++ (be32 0 ++ (be32 0 ++ (be32 0 ++ okBody files count rest q.proc)))))
  | .status e rest => be32 q.xid ++ (be32 1 ++ (be32 0 ++ (be32 0 ++ (be32 0 ++ (be32 0 ++ statusBody e rest q.proc)))))
  | .verified authlen rest => be32 q.xid ++ (be32 1 ++ (be32 0 ++ (be32 1 ++ (be32 (nonzero authlen) ++ rest))))
  | .failed status rest => be32 q.xid ++ (be32 1 ++ (be32 0 ++ (be32 0 ++ (be32 0 ++ (be32 (nonzero status) ++ rest)))))
  | .denied astatus rest => be32 q.xid ++ (be32 1 ++ (be32 (nonzero astatus) ++ rest))

/-- What the network brings: nothing, or an answer to one of the calls that were sent. -/
abbrev RpcTurn : Type := Turn (Option (ℕ × Answer))

def datagram (files : List UInt8 → List UInt8) (sent : List Request) : Option (ℕ × Answer) → Option (List UInt8)
  | none => none
  | some (k,a) => sent[k]?.map fun q => answer files q a

attribute [local grind =] okBody statusBody answer

end Server

structure PmapList where
  addr : ℕ
  prog : ℕ
  vers : ℕ
  port : ℤ

/-- `rpc_xid`, not cut to a word, the entries of `rpc_pmap_list` in use, and the calls sent. -/
structure Rpc where
  rpcXid : ℕ
  pmap : List PmapList
  sent : List Request

/-- The calls sent and the receive buffer of one call, from the header on. -/
structure RpcIo where
  sent : List Request
  buf : ℕ → UInt8

section Code
variable (files : List UInt8 → List UInt8) (stack : ℕ → ℕ → UInt8)

/-- `readudp`: the buffer is overwritten whatever follows, and a datagram that was cut is refused. -/
def readudp (len : ℕ) (pkt : Option (List UInt8)) (buf : ℕ → UInt8) : Option ℕ × (ℕ → UInt8) :=
  match pkt with
  | none => (none,buf)
  | some p => (if p.length ≤ len then some p.length else none,blit buf 0 (min p.length len) (ofList p))

def recvrpc (len xid : ℕ) (input : Option (ℕ × Answer)) (io : RpcIo) : Recv × RpcIo :=
  let r := readudp len (datagram files io.sent input) io.buf
  let io := {io with buf := r.2}
  match r.1 with
  | none => (.again,io)
  | some n =>
    if n ≤ 16 then (.again,io)
    else if beWord io.buf 0 ≠ xid%2^32 then (.again,io)
    else if beWord io.buf 4 ≠ 1 then (.again,io)
    else if beWord io.buf 8 ≠ 0 then
      -- the error number of a rejected call may be 0
      let errno := Int.bmod (beWord io.buf 12) (2^32)
      if errno = 0 then (.again,io) else (.error errno,io)
    else (.got n,io)

/-- The end of `rpc_call`: the size of the answer without its header, or the error number. -/
def rpcCheck (buf : ℕ → UInt8) : Recv → Except ℤ ℕ
  | .got cc =>
    if cc ≤ rpcReplySize then .error ebadrpc
    else if beWord buf 16 ≠ 0 then .error ebadrpc
    else if beWord buf 20 ≠ 0 then .error ebadrpc
    else .ok (cc-rpcReplySize)
  | .again => .error 0
  | .error e => .error e

/-- `rpc_call`, once the port is known. -/
def rpcCallPort (port : ℤ) (proc : Proc) (rlen : ℕ) (s : Rpc) (turns : List RpcTurn) :
    Option (Except ℤ ℕ × (ℕ → UInt8) × Rpc × List RpcTurn) :=
  let xid := s.rpcXid+1
  let q : Request := ⟨xid,(port%65536).toNat,proc⟩
  match sendrecv (fun io => {io with sent := io.sent ++ [q]}) (recvrpc files (rpcReplySize+rlen) xid) turns
      ⟨s.sent,stack xid⟩ with
  | none => none
  | some (r,io,turns) => some (rpcCheck io.buf r,io.buf,{s with rpcXid := xid, sent := io.sent},turns)

def rpcPmapGetcache (pmap : List PmapList) (addr prog vers : ℕ) : ℤ :=
  match pmap.find? fun pl => pl.addr = addr ∧ pl.prog = prog ∧ pl.vers = vers with
  | some pl => pl.port
  | none => -1

/-- A full list loses its last entry. -/
def rpcPmapPutcache (pmap : List PmapList) (pl : PmapList) : List PmapList := pmap.take (pmapNum-1) ++ [pl]

/-- `rpc_getport`: the port, and `errno` for a port `-1`. -/
def rpcGetport (destip prog vers : ℕ) (s : Rpc) (turns : List RpcTurn) :
    Option ((ℤ × ℤ) × Rpc × List RpcTurn) :=
  if prog = pmapprog then some ((pmapport,0),s,turns)
  else if rpcPmapGetcache s.pmap destip prog vers ≠ -1 then
    some ((rpcPmapGetcache s.pmap destip prog vers,0),s,turns)
  else
    match rpcCallPort files stack pmapport (.getport prog vers) 4 s turns with
    | none => none
    | some (r,buf,s,turns) =>
      let port := Int.bmod (beWord buf rpcReplySize) (2^32)
      let cached := {s with pmap := rpcPmapPutcache s.pmap ⟨destip,prog,vers,port⟩}
      match r with
      | .ok cc => if cc < 4 then some ((-1,ebadrpc),s,turns) else some ((port,0),cached,turns)
      -- a count of -1 is not below the size of the answer: the buffer is taken for one
      | .error e => some ((port,e),cached,turns)

/-- `rpc_call`: the size of the answer and the buffer with its header. -/
def rpcCall (destip prog vers : ℕ) (proc : Proc) (rlen : ℕ) (s : Rpc) (turns : List RpcTurn) :
    Option (Except ℤ (ℕ × (ℕ → UInt8)) × Rpc × List RpcTurn) :=
  match rpcGetport files stack destip prog vers s turns with
  | none => none
  | some ((port,errno),s,turns) =>
    if port = -1 then some (.error errno,s,turns)
    else
      match rpcCallPort files stack port proc rlen s turns with
      | none => none
      | some (r,buf,s,turns) => some (r.map fun cc => (cc,buf),s,turns)

structure NfsIodesc where
  destip : ℕ
  off : ℤ
  fh : List UInt8
  faSize : ℕ

attribute [local grind =] rpcCheck rpcGetport rpcCall

variable (nfsReadSize : ℕ)

/-- `nfs_readdata`: what was copied, or the error number. -/
def nfsReaddata (d : NfsIodesc) (off : ℤ) (len : ℕ) (s : Rpc) (turns : List RpcTurn) :
    Option (Except ℤ (List UInt8) × Rpc × List RpcTurn) :=
  let len := min len nfsReadSize
  match rpcCall files stack d.destip nfsProg nfsVer2 (.read d.fh (off%2^32).toNat (len%2^32))
      (nfsReadHlen+nfsreadMaxSize) s turns with
  | none => none
  | some (.error e,s,turns) => some (.error e,s,turns)
  | some (.ok (cc,buf),s,turns) =>
    let repl := fun j => buf (rpcReplySize+j)
    if cc < nfsReadHlen then some (.error ebadrpc,s,turns)
    else if beWord repl 0 ≠ 0 then some (.error (Int.bmod (beWord repl 0) (2^32)),s,turns)
    else
      let x := beWord repl 72
      if cc-nfsReadHlen < x then some (.error ebadrpc,s,turns)
      else some (.ok ((List.range x).map fun j => repl (nfsReadHlen+j)),s,turns)

/-- The loop of `nfs_read`: the error number, what remains of the size, and what was stored. -/
def nfsReadLoop : ℕ → ℤ → List UInt8 → NfsIodesc → Rpc → List RpcTurn →
    Option (ℤ × ℤ × List UInt8 × NfsIodesc × Rpc × List RpcTurn)
  | 0, _, _, _, _, _ => none
  | fuel+1, size, acc, fp, s, turns =>
    if 0 < size.bmod (2^32) then
      match nfsReaddata files stack nfsReadSize fp fp.off size.toNat s turns with
      | none => none
      | some (.error e,s,turns) => some (e,size,acc,fp,s,turns)
      | some (.ok data,s,turns) =>
        if data.length = 0 then some (0,size,acc,fp,s,turns)
        else nfsReadLoop fuel (size-data.length) (acc ++ data) {fp with off := fp.off+data.length} s turns
    else some (0,size,acc,fp,s,turns)

/-- `nfs_read`. Each turn of the loop stores something or is the last. -/
def nfsRead (fp : NfsIodesc) (size : ℕ) (s : Rpc) (turns : List RpcTurn) :
    Option (ℤ × ℤ × List UInt8 × NfsIodesc × Rpc × List RpcTurn) :=
  nfsReadLoop files stack nfsReadSize (size+1) size [] fp s turns

def nfsSeek (d : NfsIodesc) (offset : ℤ) : Whence → ℤ × NfsIodesc
  | .set => (offset,{d with off := offset})
  | .cur => (d.off+offset,{d with off := d.off+offset})
  | .end => (d.faSize-offset,{d with off := d.faSize-offset})

/-- A call on one of the open files. -/
inductive NfsCall
  | read (i : ℕ) (size : ℕ)
  | seek (i : ℕ) (offset : ℤ) (whence : Whence)

/-- The open files, the state of the calls, and what the network will bring. -/
structure NfsState where
  rpc : Rpc
  iodesc : ℕ → NfsIodesc
  turns : List RpcTurn

/-- What a read returns, if it does, and leaves. -/
def nfsReturn (s : NfsState) (i : ℕ) :
    Option (ℤ × ℤ × List UInt8 × NfsIodesc × Rpc × List RpcTurn) → Option (ℤ × List UInt8) × NfsState
  | none => (none,s)
  | some (e,_,data,fp,rpc,turns) => (some (e,data),⟨rpc,Function.update s.iodesc i fp,turns⟩)

/-- One call: for a read, the error number and what was stored. -/
def nfsStep (s : NfsState) : NfsCall → Option (ℤ × List UInt8) × NfsState
  | .read i size => nfsReturn s i (nfsRead files stack nfsReadSize (s.iodesc i) size s.rpc s.turns)
  | .seek i offset whence =>
    (none,{s with iodesc := Function.update s.iodesc i (nfsSeek (s.iodesc i) offset whence).2})

/-- A read that returns 0 has stored the bytes of its file from the offset on, up to its end, and has
advanced the offset. -/
def NfsReads (s : NfsState) : NfsCall → Prop
  | .read i size =>
    ∀ resid data fp rpc turns,
      nfsRead files stack nfsReadSize (s.iodesc i) size s.rpc s.turns = some (0,resid,data,fp,rpc,turns) →
      data = ((files (s.iodesc i).fh).drop (s.iodesc i).off.toNat).take size ∧
        fp.off = (s.iodesc i).off+data.length ∧ resid = size-data.length
  | .seek _ _ _ => True

/-- Sizes and offsets are below `2^31`, and fewer than `2^32` calls were numbered after `base`. -/
def NfsOk (base : ℕ) (s : NfsState) (c : NfsCall) : Prop :=
  (nfsStep files stack nfsReadSize s c).2.rpc.rpcXid < base+2^32 ∧
    match c with
    | .read _ size => size < 2^31
    | .seek i offset whence =>
      whence ≠ .end ∧ 0 ≤ (nfsSeek (s.iodesc i) offset whence).1 ∧ (nfsSeek (s.iodesc i) offset whence).1 < 2^31

attribute [local grind =] nfsReaddata nfsReadLoop nfsSeek

end Code

section Answers
variable {files : List UInt8 → List UInt8}

theorem nonzero_mod (n : ℕ) : nonzero n%2^32 ≠ 0 := by
  simp only [nonzero]
  omega

/-- The number of an answer is the number of its call. -/
theorem answer_xid (q : Request) (a : Answer) : beWord (ofList (answer files q a)) 0 = q.xid%2^32 := by
  cases a <;> exact beWord_be32 _ _

/-- What an accepted answer to a call holds after its header. -/
def Body (files : List UInt8 → List UInt8) (proc : Proc) (body : List UInt8) : Prop :=
  (∃ count rest, body = okBody files count rest proc) ∨ ∃ e rest, body = statusBody e rest proc

theorem skip₂ (u v : ℕ) (l : List UInt8) (o : ℕ) :
    beWord (ofList (be32 u ++ (be32 v ++ l))) (o+8) = beWord (ofList l) o :=
  (beWord_skip u _ (o+4)).trans (beWord_skip v l o)

/-- An answer that passes the checks of `recvrpc` and `rpc_call`. -/
theorem answer_accepted {q : Request} {a : Answer} (h₈ : beWord (ofList (answer files q a)) 8 = 0)
    (h₁₆ : beWord (ofList (answer files q a)) 16 = 0) (h₂₀ : beWord (ofList (answer files q a)) 20 = 0) :
    ∃ head body, answer files q a = head ++ body ∧ head.length = rpcReplySize ∧ Body files q.proc body := by
  cases a with
  | ok count rest =>
    refine ⟨be32 q.xid ++ be32 1 ++ be32 0 ++ be32 0 ++ be32 0 ++ be32 0,_,?_,rfl,.inl ⟨count,rest,rfl⟩⟩
    simp only [answer,List.append_assoc]
  | status e rest =>
    refine ⟨be32 q.xid ++ be32 1 ++ be32 0 ++ be32 0 ++ be32 0 ++ be32 0,_,?_,rfl,.inr ⟨e,rest,rfl⟩⟩
    simp only [answer,List.append_assoc]
  | verified authlen rest =>
    have h : beWord (ofList (answer files q (.verified authlen rest))) 16 = nonzero authlen%2^32 :=
      (skip₂ _ _ _ 8).trans ((skip₂ _ _ _ 0).trans (beWord_be32 _ _))
    exact absurd (h.symm.trans h₁₆) (nonzero_mod authlen)
  | failed status rest =>
    have h : beWord (ofList (answer files q (.failed status rest))) 20 = nonzero status%2^32 :=
      (skip₂ _ _ _ 12).trans ((skip₂ _ _ _ 4).trans ((beWord_skip _ _ 0).trans (beWord_be32 _ _)))
    exact absurd (h.symm.trans h₂₀) (nonzero_mod status)
  | denied astatus rest =>
    have h : beWord (ofList (answer files q (.denied astatus rest))) 8 = nonzero astatus%2^32 :=
      (skip₂ _ _ _ 0).trans (beWord_be32 _ _)
    exact absurd (h.symm.trans h₈) (nonzero_mod astatus)

end Answers

section Numbers
variable {files : List UInt8 → List UInt8} {stack : ℕ → ℕ → UInt8}

theorem rpcCallPort_xid {port : ℤ} {proc : Proc} {rlen : ℕ} {s s' : Rpc} {turns rest : List RpcTurn}
    {r : Except ℤ ℕ} {buf : ℕ → UInt8} (h : rpcCallPort files stack port proc rlen s turns = some (r,buf,s',rest)) :
    s'.rpcXid = s.rpcXid+1 := by
  unfold rpcCallPort at h
  dsimp only at h
  split at h
  · cases h
  · simp only [Option.some.injEq,Prod.mk.injEq] at h
    rw [← h.2.2.1]

theorem rpcGetport_xid {destip prog vers : ℕ} {s s' : Rpc} {turns rest : List RpcTurn} {p : ℤ × ℤ}
    (h : rpcGetport files stack destip prog vers s turns = some (p,s',rest)) : s.rpcXid ≤ s'.rpcXid := by
  unfold rpcGetport at h
  split_ifs at h
  · obtain ⟨-,rfl,-⟩ : _ ∧ s = s' ∧ _ := by simpa using h
    exact le_rfl
  · obtain ⟨-,rfl,-⟩ : _ ∧ s = s' ∧ _ := by simpa using h
    exact le_rfl
  · split at h
    · cases h
    · rename_i r buf s₁ rest₁ hx
      have hxid := rpcCallPort_xid hx
      cases r with
      | ok cc =>
        dsimp only at h
        split_ifs at h
        all_goals
          simp only [Option.some.injEq,Prod.mk.injEq] at h
          rw [← h.2.1]
          exact hxid ▸ Nat.le_succ _
      | error e =>
        simp only [Option.some.injEq,Prod.mk.injEq] at h
        rw [← h.2.1]
        exact hxid ▸ Nat.le_succ _

theorem rpcCall_xid {destip prog vers : ℕ} {proc : Proc} {rlen : ℕ} {s s' : Rpc} {turns rest : List RpcTurn}
    {r : Except ℤ (ℕ × (ℕ → UInt8))} (h : rpcCall files stack destip prog vers proc rlen s turns = some (r,s',rest)) :
    s.rpcXid ≤ s'.rpcXid := by
  unfold rpcCall at h
  split at h
  · cases h
  · rename_i hg
    have hle := rpcGetport_xid hg
    split_ifs at h
    · simp only [Option.some.injEq,Prod.mk.injEq] at h
      rwa [← h.2.1]
    · split at h
      · cases h
      · rename_i hx
        have hxid := rpcCallPort_xid hx
        simp only [Option.some.injEq,Prod.mk.injEq] at h
        rw [← h.2.1]
        omega

theorem nfsReaddata_xid {nfsReadSize : ℕ} {d : NfsIodesc} {off : ℤ} {len : ℕ} {s s' : Rpc} {turns rest : List RpcTurn}
    {r : Except ℤ (List UInt8)} (h : nfsReaddata files stack nfsReadSize d off len s turns = some (r,s',rest)) :
    s.rpcXid ≤ s'.rpcXid := by
  unfold nfsReaddata at h
  dsimp only at h
  split at h
  · cases h
  · rename_i hx
    simp only [Option.some.injEq,Prod.mk.injEq] at h
    rw [← h.2.1]
    exact rpcCall_xid hx
  · rename_i hx
    have hle := rpcCall_xid hx
    split_ifs at h
    all_goals
      simp only [Option.some.injEq,Prod.mk.injEq] at h
      rwa [← h.2.1]

theorem nfsReadLoop_xid {nfsReadSize : ℕ} (fuel : ℕ) {size : ℤ} {acc : List UInt8} {fp fp' : NfsIodesc} {s s' : Rpc}
    {turns rest : List RpcTurn} {e resid : ℤ} {data : List UInt8}
    (h : nfsReadLoop files stack nfsReadSize fuel size acc fp s turns = some (e,resid,data,fp',s',rest)) :
    s.rpcXid ≤ s'.rpcXid := by
  induction fuel generalizing size acc fp s turns with
  | zero => cases h
  | succ fuel ih =>
    rw [nfsReadLoop] at h
    split_ifs at h
    · split at h
      · cases h
      · rename_i hx
        simp only [Option.some.injEq,Prod.mk.injEq] at h
        rw [← h.2.2.2.2.1]
        exact nfsReaddata_xid hx
      · rename_i hx
        have hle := nfsReaddata_xid hx
        split_ifs at h
        · simp only [Option.some.injEq,Prod.mk.injEq] at h
          rwa [← h.2.2.2.2.1]
        · exact hle.trans (ih h)
    · simp only [Option.some.injEq,Prod.mk.injEq] at h
      rw [← h.2.2.2.2.1]

end Numbers

section Exchange
variable {files : List UInt8 → List UInt8} {stack : ℕ → ℕ → UInt8}

/-- A receipt that ends an exchange: an error, or an answer to a call with this number. -/
theorem recvrpc_cases {len xid : ℕ} {input : Option (ℕ × Answer)} {io io' : RpcIo} {r : Recv}
    (h : recvrpc files len xid input io = (r,io')) :
    io'.sent = io.sent ∧ (r = .again ∨ (∃ e, r = .error e ∧ e ≠ 0) ∨
      ∃ q ∈ io.sent, ∃ a, q.xid%2^32 = xid%2^32 ∧ r = .got (answer files q a).length ∧
        beWord (ofList (answer files q a)) 8 = 0 ∧
        ∀ j < (answer files q a).length, io'.buf j = ofList (answer files q a) j) := by
  unfold recvrpc at h
  dsimp only at h
  obtain ⟨pkt,hpkt⟩ : ∃ pkt, pkt = datagram files io.sent input := ⟨_,rfl⟩
  rw [← hpkt] at h
  cases pkt with
  | none =>
    obtain ⟨rfl,rfl⟩ := Prod.mk.injEq .. ▸ h
    exact ⟨rfl,.inl rfl⟩
  | some p =>
    obtain ⟨q,hq,a,rfl⟩ : ∃ q ∈ io.sent, ∃ a, p = answer files q a := by
      rcases input with _ | ⟨k,a⟩
      · cases hpkt
      · obtain ⟨q,hk,ha⟩ := Option.map_eq_some_iff.mp hpkt.symm
        exact ⟨q,List.mem_of_getElem? hk,a,ha.symm⟩
    obtain ⟨buf,hbuf⟩ : ∃ buf, buf = blit io.buf 0 (min (answer files q a).length len) (ofList (answer files q a)) := ⟨_,rfl⟩
    by_cases hlen : (answer files q a).length ≤ len
    · have hread : readudp len (some (answer files q a)) io.buf = (some (answer files q a).length,buf) := by
        rw [readudp,if_pos hlen,hbuf]
      have hin : ∀ j < (answer files q a).length, buf j = ofList (answer files q a) j := by
        intro j hj
        rw [hbuf,blit_inside (Nat.zero_le j) (by omega),Nat.sub_zero]
      rw [hread] at h
      dsimp only at h
      split_ifs at h with hshort hxid hdir hacc herr
      all_goals obtain ⟨rfl,rfl⟩ := Prod.mk.injEq .. ▸ h
      · exact ⟨rfl,.inl rfl⟩
      · exact ⟨rfl,.inl rfl⟩
      · exact ⟨rfl,.inl rfl⟩
      · exact ⟨rfl,.inl rfl⟩
      · exact ⟨rfl,.inr (.inl ⟨_,rfl,herr⟩)⟩
      · have hword : ∀ o, o+4 ≤ 16 → beWord buf o = beWord (ofList (answer files q a)) o :=
          fun o ho => beWord_congr fun j hj => hin _ (by omega)
        rw [not_not] at hxid hacc
        rw [hword _ (by omega)] at hxid hacc
        exact ⟨rfl,.inr (.inr ⟨q,hq,a,(answer_xid q a).symm.trans hxid,rfl,hacc,hin⟩)⟩
    · have hread : readudp len (some (answer files q a)) io.buf = (none,buf) := by
        rw [readudp,if_neg hlen,hbuf]
      rw [hread] at h
      obtain ⟨rfl,rfl⟩ := Prod.mk.injEq .. ▸ h
      exact ⟨rfl,.inl rfl⟩

/-- Every call sent has a number after `base`, up to the last number given. -/
structure Numbered (base : ℕ) (s : Rpc) : Prop where
  base_le : base ≤ s.rpcXid
  sent : ∀ q ∈ s.sent, base < q.xid ∧ q.xid ≤ s.rpcXid

/-- A call whose number is new gets an answer of its own, or fails. -/
theorem rpcCallPort_spec {base : ℕ} {port : ℤ} {proc : Proc} {rlen : ℕ} {s s' : Rpc} {turns rest : List RpcTurn}
    {r : Except ℤ ℕ} {buf : ℕ → UInt8} (hn : Numbered base s) (hlt : s.rpcXid+1 < base+2^32)
    (h : rpcCallPort files stack port proc rlen s turns = some (r,buf,s',rest)) :
    Numbered base s' ∧ s'.rpcXid = s.rpcXid+1 ∧
      ((∃ e, r = .error e ∧ e ≠ 0) ∨ ∃ body, r = .ok body.length ∧ Body files proc body ∧
        ∀ j < body.length, buf (rpcReplySize+j) = ofList body j) := by
  unfold rpcCallPort at h
  dsimp only at h
  obtain ⟨q,hq⟩ : ∃ q, q = (⟨s.rpcXid+1,(port%65536).toNat,proc⟩ : Request) := ⟨_,rfl⟩
  have hqx : q.xid = s.rpcXid+1 := by rw [hq]
  have hqp : q.proc = proc := by rw [hq]
  rw [← hq] at h
  cases hx : sendrecv (fun io : RpcIo => {io with sent := io.sent ++ [q]})
      (recvrpc files (rpcReplySize+rlen) (s.rpcXid+1)) turns ⟨s.sent,stack (s.rpcXid+1)⟩ with
  | none => rw [hx] at h; cases h
  | some out =>
    obtain ⟨r₁,io,rest₁⟩ := out
    rw [hx] at h
    simp only [Option.some.injEq,Prod.mk.injEq] at h
    obtain ⟨rfl,rfl,rfl,rfl⟩ := h
    -- the other calls have numbers of their own
    have hown : ∀ x : Request, x = q ∨ (base < x.xid ∧ x.xid ≤ s.rpcXid) → x.xid%2^32 = (s.rpcXid+1)%2^32 → x = q := by
      intro x hx hmod
      obtain hx | hx := hx
      · exact hx
      · omega
    have hrule := sendrecv_rule_forall (P := fun _ => True)
      (I := fun io => ∀ x ∈ io.sent, x = q ∨ (base < x.xid ∧ x.xid ≤ s.rpcXid))
      (Q := fun r io => (∀ x ∈ io.sent, x = q ∨ (base < x.xid ∧ x.xid ≤ s.rpcXid)) ∧
        ((∃ e, r = .error e ∧ e ≠ 0) ∨ ∃ a, r = .got (answer files q a).length ∧
          beWord (ofList (answer files q a)) 8 = 0 ∧
          ∀ j < (answer files q a).length, io.buf j = ofList (answer files q a) j))
      ?_ ?_ ?_ ?_ (fun _ _ => trivial) (fun x hx => .inr (hn.sent x hx)) hx
    · obtain ⟨⟨hsent,hres⟩,-⟩ := hrule
      refine ⟨⟨by have := hn.base_le; dsimp only; omega,?_⟩,rfl,?_⟩
      · intro x hx
        have hle := hn.base_le
        dsimp only at hx ⊢
        obtain rfl | hx := hsent x hx
        · omega
        · omega
      obtain ⟨e,rfl,he⟩ | ⟨a,rfl,h₈,hbuf⟩ := hres
      · exact .inl ⟨e,rfl,he⟩
      · have hword : ∀ o, o+4 ≤ (answer files q a).length → beWord io.buf o = beWord (ofList (answer files q a)) o :=
          fun o ho => beWord_congr fun j hj => hbuf _ (by omega)
        rw [rpcCheck]
        split_ifs with hshort hauth hstatus
        · exact .inl ⟨_,rfl,by decide⟩
        · exact .inl ⟨_,rfl,by decide⟩
        · exact .inl ⟨_,rfl,by decide⟩
        · simp only [rpcReplySize] at hshort
          rw [not_not] at hauth hstatus
          rw [hword _ (by omega)] at hauth hstatus
          obtain ⟨head,body,hsplit,hhead,hbody⟩ := answer_accepted h₈ hauth hstatus
          refine .inr ⟨body,?_,hqp ▸ hbody,?_⟩
          · rw [hsplit,List.length_append,hhead,Nat.add_sub_cancel_left]
          · intro j hj
            rw [hbuf _ (by rw [hsplit,List.length_append,hhead]; omega),hsplit,← hhead,ofList_append_right]
    · intro io hio x hx
      obtain hx | hx := List.mem_append.mp hx
      · exact hio x hx
      · exact .inl (List.mem_singleton.mp hx)
    · intro input io io' _ hio hrun x hx
      rw [(recvrpc_cases hrun).1] at hx
      exact hio x hx
    · intro input io r io' _ hio hrun hne
      obtain ⟨hs,hres⟩ := recvrpc_cases hrun
      refine ⟨fun x hx => hio x (hs ▸ hx),?_⟩
      obtain hagain | herr | ⟨x,hx,a,hxid,hgot⟩ := hres
      · exact absurd hagain hne
      · exact .inl herr
      · rw [hown x (hio x hx) hxid] at hgot
        exact .inr ⟨a,hgot⟩
    · intro io hio
      exact ⟨hio,.inl ⟨_,rfl,by decide⟩⟩

theorem bmod_word_ne_zero {n : ℕ} (h₀ : n ≠ 0) (h : n < 2^32) : Int.bmod n (2^32) ≠ 0 := by
  intro hz
  have hdvd : 2^32 ∣ n := Int.natCast_dvd_natCast.mp (Int.dvd_of_bmod_eq_zero hz)
  exact absurd (Nat.le_of_dvd (Nat.pos_of_ne_zero h₀) hdvd) (Nat.not_le.mpr h)

/-- A port that cannot be used comes with an error: the portmapper returns ports. -/
theorem rpcGetport_spec {base destip prog vers : ℕ} {s s' : Rpc} {turns rest : List RpcTurn} {port errno : ℤ}
    (hn : Numbered base s) (h : rpcGetport files stack destip prog vers s turns = some ((port,errno),s',rest))
    (hlt : s'.rpcXid < base+2^32) : Numbered base s' ∧ (port = -1 → errno ≠ 0) := by
  unfold rpcGetport at h
  split_ifs at h with hprog hcache
  · simp only [Option.some.injEq,Prod.mk.injEq] at h
    obtain ⟨⟨rfl,rfl⟩,rfl,rfl⟩ := h
    exact ⟨hn,fun hp => absurd hp (by decide)⟩
  · simp only [Option.some.injEq,Prod.mk.injEq] at h
    obtain ⟨⟨rfl,rfl⟩,rfl,rfl⟩ := h
    exact ⟨hn,fun hp => absurd hp hcache⟩
  · cases hx : rpcCallPort files stack pmapport (.getport prog vers) 4 s turns with
    | none => rw [hx] at h; cases h
    | some out =>
      obtain ⟨r,buf,s₁,rest₁⟩ := out
      have hxid := rpcCallPort_xid hx
      rw [hx] at h
      dsimp only at h
      cases r with
      | error e =>
        simp only [Option.some.injEq,Prod.mk.injEq] at h
        obtain ⟨⟨rfl,rfl⟩,rfl,rfl⟩ := h
        obtain ⟨hn₁,-,⟨e,he,hne⟩ | ⟨body,hok,-⟩⟩ := rpcCallPort_spec hn (by dsimp only at hlt; omega) hx
        · cases he
          exact ⟨⟨hn₁.base_le,hn₁.sent⟩,fun _ => hne⟩
        · cases hok
      | ok cc =>
        dsimp only at h
        split_ifs at h with hcc
        · simp only [Option.some.injEq,Prod.mk.injEq] at h
          obtain ⟨⟨rfl,rfl⟩,rfl,rfl⟩ := h
          exact ⟨(rpcCallPort_spec hn (by omega) hx).1,fun _ => by decide⟩
        · simp only [Option.some.injEq,Prod.mk.injEq] at h
          obtain ⟨⟨rfl,rfl⟩,rfl,rfl⟩ := h
          obtain ⟨hn₁,-,⟨e,he,-⟩ | ⟨body,hok,hbody,hbuf⟩⟩ := rpcCallPort_spec hn (by dsimp only at hlt; omega) hx
          · cases he
          · refine ⟨⟨hn₁.base_le,hn₁.sent⟩,fun hp => ?_⟩
            obtain ⟨p,hp₁,rfl⟩ : ∃ p < 65536, body = be32 p := by
              obtain ⟨count,rest,hb⟩ | ⟨e,rest,hb⟩ := hbody
              · exact ⟨_,Nat.mod_lt count (by decide),hb⟩
              · exact ⟨_,by decide,hb⟩
            have hword : beWord buf rpcReplySize = p := by
              have hw := beWord_be32 p []
              rw [List.append_nil,Nat.mod_eq_of_lt (by omega)] at hw
              rw [← hw]
              refine beWord_congr fun j hj => ?_
              rw [hbuf j hj,Nat.zero_add]
            rw [hword,bmod_of_lt (by omega)] at hp
            omega

theorem rpcCall_spec {base destip prog vers : ℕ} {proc : Proc} {rlen : ℕ} {s s' : Rpc} {turns rest : List RpcTurn}
    {r : Except ℤ (ℕ × (ℕ → UInt8))} (hn : Numbered base s)
    (h : rpcCall files stack destip prog vers proc rlen s turns = some (r,s',rest)) (hlt : s'.rpcXid < base+2^32) :
    Numbered base s' ∧ ((∃ e, r = .error e ∧ e ≠ 0) ∨ ∃ body buf, r = .ok (body.length,buf) ∧
      Body files proc body ∧ ∀ j < body.length, buf (rpcReplySize+j) = ofList body j) := by
  unfold rpcCall at h
  cases hg : rpcGetport files stack destip prog vers s turns with
  | none => rw [hg] at h; cases h
  | some out =>
    obtain ⟨⟨port,errno⟩,s₁,rest₁⟩ := out
    have hport := rpcGetport_spec hn hg
    rw [hg] at h
    dsimp only at h
    split_ifs at h with hbad
    · simp only [Option.some.injEq,Prod.mk.injEq] at h
      obtain ⟨rfl,rfl,rfl⟩ := h
      exact ⟨(hport hlt).1,.inl ⟨errno,rfl,(hport hlt).2 hbad⟩⟩
    · cases hx : rpcCallPort files stack port proc rlen s₁ rest₁ with
      | none => rw [hx] at h; cases h
      | some out =>
        obtain ⟨r₁,buf,s₂,rest₂⟩ := out
        have hxid := rpcCallPort_xid hx
        rw [hx] at h
        simp only [Option.some.injEq,Prod.mk.injEq] at h
        obtain ⟨rfl,rfl,rfl⟩ := h
        obtain ⟨hn₂,-,hres⟩ := rpcCallPort_spec (hport (by omega)).1 (by omega) hx
        refine ⟨hn₂,?_⟩
        obtain ⟨e,rfl,he⟩ | ⟨body,rfl,hbody⟩ := hres
        · exact .inl ⟨e,rfl,he⟩
        · exact .inr ⟨body,buf,rfl,hbody⟩

end Exchange

section Files
variable {files : List UInt8 → List UInt8} {stack : ℕ → ℕ → UInt8} {nfsReadSize base : ℕ}

theorem served_le (file : List UInt8) (off len count : ℕ) : served file off len count ≤ len ∧
    served file off len count ≤ file.length-off ∧ (0 < len → served file off len count = 0 → file.length ≤ off) := by
  simp only [served]
  omega

/-- An answer with data: its words, and the bytes after them. -/
theorem readBody {fh : List UInt8} {off len count : ℕ} {rest body : List UInt8} {n : ℕ}
    (hn : n = served (files fh) off len count) (hlt : n < 2^32) (h : body = okBody files count rest (.read fh off len)) :
    beWord (ofList body) 0 = 0 ∧ beWord (ofList body) 72 = n ∧ nfsReadHlen+n ≤ body.length ∧
      ∀ j < n, ofList body (nfsReadHlen+j) = ofList (((files fh).drop off).take n) j := by
  have hlen : n ≤ (files fh).length-off := hn ▸ (served_le _ _ _ _).2.1
  have htake : (((files fh).drop off).take n).length = n := by rw [List.length_take,List.length_drop]; omega
  have hatt : (attributes rest).length = 68 := by rw [attributes,List.length_map,List.length_range]
  subst h
  rw [okBody,← hn]
  have hskip : ∀ (l : List UInt8) j, ofList (be32 0 ++ (attributes rest ++ (be32 n ++ l))) (nfsReadHlen+j) = ofList l j := by
    intro l j
    have h₁ := ofList_append_right (be32 0) (attributes rest ++ (be32 n ++ l)) (72+j)
    have h₂ := ofList_append_right (attributes rest) (be32 n ++ l) (4+j)
    have h₃ := ofList_append_right (be32 n) l j
    rw [length_be32] at h₁ h₃
    rw [hatt] at h₂
    rw [show nfsReadHlen+j = 4+(72+j) by simp only [nfsReadHlen]; omega,h₁,show 72+j = 68+(4+j) by omega,h₂,h₃]
  refine ⟨beWord_be32 0 _,?_,?_,fun j hj => ?_⟩
  · have h₁ := beWord_append_right (attributes rest) (be32 n ++ (((files fh).drop off).take n ++
      List.replicate ((4-n%4)%4) 0)) 0
    rw [hatt,beWord_be32,Nat.mod_eq_of_lt hlt] at h₁
    exact (beWord_skip 0 _ 68).trans h₁
  · simp only [List.length_append,length_be32,hatt,htake,nfsReadHlen]
    omega
  · rw [hskip,ofList_append_left (by omega)]

/-- One transfer: bytes of the file, and none only at its end. -/
theorem nfsReaddata_spec (hsize : nfsreadMinSize ≤ nfsReadSize)
    {d : NfsIodesc} {off : ℤ} {len : ℕ} {s s' : Rpc} {turns rest : List RpcTurn} {r : Except ℤ (List UInt8)}
    (hoff : 0 ≤ off ∧ off < 2^31) (hlen : 0 < len ∧ len < 2^31) (hn : Numbered base s)
    (h : nfsReaddata files stack nfsReadSize d off len s turns = some (r,s',rest)) (hlt : s'.rpcXid < base+2^32) :
    Numbered base s' ∧ ((∃ e, r = .error e ∧ e ≠ 0) ∨ ∃ n, r = .ok (((files d.fh).drop off.toNat).take n) ∧
      n ≤ len ∧ n ≤ (files d.fh).length-off.toNat ∧ (n = 0 → (files d.fh).length ≤ off.toNat)) := by
  unfold nfsReaddata at h
  dsimp only at h
  have hoff' : (off%2^32).toNat = off.toNat := by omega
  have hmin : 0 < min len nfsReadSize ∧ min len nfsReadSize < 2^31 := by
    simp only [nfsreadMinSize] at hsize
    omega
  have hlen' : min len nfsReadSize%2^32 = min len nfsReadSize := Nat.mod_eq_of_lt (by omega)
  rw [hoff',hlen'] at h
  cases hx : rpcCall files stack d.destip nfsProg nfsVer2 (.read d.fh off.toNat (min len nfsReadSize))
      (nfsReadHlen+nfsreadMaxSize) s turns with
  | none => rw [hx] at h; cases h
  | some out =>
    obtain ⟨r₁,s₁,rest₁⟩ := out
    have hcall := rpcCall_spec hn hx
    rw [hx] at h
    cases r₁ with
    | error e =>
      simp only [Option.some.injEq,Prod.mk.injEq] at h
      obtain ⟨rfl,rfl,rfl⟩ := h
      obtain ⟨hn₁,⟨e,he,hne⟩ | ⟨body,buf,hok,-⟩⟩ := hcall hlt
      · cases he
        exact ⟨hn₁,.inl ⟨_,rfl,hne⟩⟩
      · cases hok
    | ok p =>
      obtain ⟨cc,buf⟩ := p
      dsimp only at h
      obtain ⟨rfl,hs⟩ : s₁ = s' ∧ r = (if cc < nfsReadHlen then .error ebadrpc
          else if beWord (fun j => buf (rpcReplySize+j)) 0 ≠ 0 then
            .error (Int.bmod (beWord (fun j => buf (rpcReplySize+j)) 0) (2^32))
          else if cc-nfsReadHlen < beWord (fun j => buf (rpcReplySize+j)) 72 then .error ebadrpc
          else .ok ((List.range (beWord (fun j => buf (rpcReplySize+j)) 72)).map
            fun j => buf (rpcReplySize+(nfsReadHlen+j)))) := by
        split_ifs at h ⊢
        all_goals
          simp only [Option.some.injEq,Prod.mk.injEq] at h
          exact ⟨h.2.1,h.1.symm⟩
      clear h
      obtain ⟨hn₁,⟨e,he,-⟩ | ⟨body,buf₁,hok,hbody,hbuf⟩⟩ := hcall hlt
      · cases he
      obtain ⟨rfl,rfl⟩ : cc = body.length ∧ buf = buf₁ := by simpa using hok
      refine ⟨hn₁,?_⟩
      split_ifs at hs with hshort herr hcount
      · exact .inl ⟨_,hs,by decide⟩
      · exact .inl ⟨_,hs,bmod_word_ne_zero herr (beWord_lt _ _)⟩
      · exact .inl ⟨_,hs,by decide⟩
      · have hword : ∀ o, o+4 ≤ body.length → beWord (fun j => buf (rpcReplySize+j)) o = beWord (ofList body) o :=
          fun o ho => beWord_congr fun j hj => hbuf _ (by omega)
        rw [nfsReadHlen] at hshort
        rw [hword 72 (by omega)] at hs hcount
        rw [not_not,hword 0 (by omega)] at herr
        obtain ⟨count,rest,hb⟩ | ⟨e,rest,hb⟩ := hbody
        · obtain ⟨n,hserved⟩ : ∃ n, n = served (files d.fh) off.toNat (min len nfsReadSize) count := ⟨_,rfl⟩
          obtain ⟨hle₁,hle₂,hend⟩ := served_le (files d.fh) off.toNat (min len nfsReadSize) count
          rw [← hserved] at hle₁ hle₂ hend
          obtain ⟨-,hx,hroom,hdata⟩ := readBody hserved (by omega) hb
          refine .inr ⟨n,?_,hle₁.trans (min_le_left _ _),hle₂,hend hmin.1⟩
          · have htake : (((files d.fh).drop off.toNat).take n).length = n := by
              rw [List.length_take,List.length_drop]
              omega
            rw [hs,hx,← map_range_ofList (((files d.fh).drop off.toNat).take n),htake]
            congr 1
            refine List.map_congr_left fun j hj => ?_
            rw [List.mem_range] at hj
            rw [hbuf _ (by omega),hdata j hj]
        · rw [hb,statusBody,beWord_be32] at herr
          exact absurd herr (nonzero_mod e)

/-- The loop of a read, from what it has stored on. -/
theorem nfsReadLoop_spec (hF : ∀ fh, (files fh).length < 2^31) (hsize : nfsreadMinSize ≤ nfsReadSize) (fuel size : ℕ)
    (acc : List UInt8) {fp fp' : NfsIodesc} {s s' : Rpc} {turns rest : List RpcTurn} {e resid : ℤ} {data : List UInt8}
    (hoff : 0 ≤ fp.off ∧ fp.off < 2^31) (hlt : size < 2^31) (hn : Numbered base s)
    (h : nfsReadLoop files stack nfsReadSize fuel size acc fp s turns = some (e,resid,data,fp',s',rest))
    (hb : s'.rpcXid < base+2^32) : Numbered base s' ∧ (0 ≤ fp'.off ∧ fp'.off < 2^31) ∧
      (e = 0 → ∃ more, data = acc ++ more ∧ more = ((files fp.fh).drop fp.off.toNat).take size ∧
        fp'.off = fp.off+more.length ∧ resid = size-more.length) := by
  induction fuel generalizing size acc fp s turns with
  | zero => cases h
  | succ fuel ih =>
    rw [nfsReadLoop,bmod_of_lt hlt] at h
    split_ifs at h with hpos
    · rw [Int.toNat_natCast] at h
      cases hx : nfsReaddata files stack nfsReadSize fp fp.off size s turns with
      | none => rw [hx] at h; cases h
      | some out =>
        obtain ⟨r,s₁,rest₁⟩ := out
        have hdata := nfsReaddata_spec hsize hoff ⟨by omega,hlt⟩ hn hx
        rw [hx] at h
        cases r with
        | error e₁ =>
          simp only [Option.some.injEq,Prod.mk.injEq] at h
          obtain ⟨rfl,rfl,rfl,rfl,rfl,rfl⟩ := h
          obtain ⟨hn₁,⟨e,he,hne⟩ | ⟨n,hok,-⟩⟩ := hdata hb
          · cases he
            exact ⟨hn₁,hoff,fun hz => absurd hz hne⟩
          · cases hok
        | ok got =>
          dsimp only at h
          have hle : s₁.rpcXid ≤ s'.rpcXid := by
            split_ifs at h
            · simp only [Option.some.injEq,Prod.mk.injEq] at h
              rw [← h.2.2.2.2.1]
            · exact nfsReadLoop_xid fuel h
          obtain ⟨hn₁,⟨e,he,-⟩ | ⟨n,hok,hn₀,hn₂,hend⟩⟩ := hdata (by omega)
          · cases he
          have hF' := hF fp.fh
          have hgot : got = ((files fp.fh).drop fp.off.toNat).take n := by simpa using hok
          have hlen : got.length = n := by rw [hgot,List.length_take,List.length_drop]; omega
          rw [hlen] at h
          split_ifs at h with hz
          · simp only [Option.some.injEq,Prod.mk.injEq] at h
            obtain ⟨rfl,rfl,rfl,rfl,rfl,rfl⟩ := h
            refine ⟨hn₁,hoff,fun _ => ⟨[],?_⟩⟩
            rw [List.drop_eq_nil_of_le (hend hz)]
            simp
          · rw [← Nat.cast_sub hn₀] at h
            have hnext : 0 ≤ fp.off+n ∧ fp.off+n < 2^31 := by omega
            obtain ⟨hn',hoff',hres⟩ := ih (size-n) (acc ++ got) hnext (by omega) hn₁ h
            refine ⟨hn',hoff',fun he => ?_⟩
            obtain ⟨more,hdata₁,hmore,hoff₁,hresid⟩ := hres he
            refine ⟨got ++ more,?_,?_,?_,?_⟩
            · rw [hdata₁,List.append_assoc]
            · have hto : (fp.off+n).toNat = fp.off.toNat+n := by omega
              rw [hmore,hgot]
              dsimp only
              rw [hto,take_drop_append _ _ hn₀]
            · rw [hoff₁,List.length_append,hlen]
              dsimp only
              push_cast
              omega
            · rw [hresid,List.length_append,hlen]
              push_cast
              omega
    · simp only [Option.some.injEq,Prod.mk.injEq] at h
      obtain ⟨rfl,rfl,rfl,rfl,rfl,rfl⟩ := h
      obtain rfl : size = 0 := by omega
      exact ⟨hn,hoff,fun _ => ⟨[],by simp⟩⟩

/-- Files that were opened: their offsets, and the calls made so far. -/
structure NfsOpen (base : ℕ) (s : NfsState) : Prop where
  numbered : Numbered base s.rpc
  off : ∀ i, 0 ≤ (s.iodesc i).off ∧ (s.iodesc i).off < 2^31

theorem NfsOpen.update {s : NfsState} (hs : NfsOpen base s) {rpc : Rpc} {turns : List RpcTurn} (hn : Numbered base rpc)
    (i : ℕ) {fp : NfsIodesc} (hfp : 0 ≤ fp.off ∧ fp.off < 2^31) :
    NfsOpen base ⟨rpc,Function.update s.iodesc i fp,turns⟩ where
  numbered := hn
  off := by
    intro k
    dsimp only
    by_cases hk : k = i
    · rw [hk,Function.update_self]
      exact hfp
    · rw [Function.update_of_ne hk]
      exact hs.off k

theorem nfsSeek_off (d : NfsIodesc) (offset : ℤ) (whence : Whence) :
    (nfsSeek d offset whence).2.off = (nfsSeek d offset whence).1 := by cases whence <;> rfl

theorem nfsStep_spec (hF : ∀ fh, (files fh).length < 2^31) (hsize : nfsreadMinSize ≤ nfsReadSize) (s : NfsState) (c : NfsCall)
    (hs : NfsOpen base s) (hok : NfsOk files stack nfsReadSize base s c) :
    NfsReads files stack nfsReadSize s c ∧ NfsOpen base (nfsStep files stack nfsReadSize s c).2 := by
  obtain ⟨hxid,hok⟩ := hok
  cases c with
  | read i size =>
    cases hx : nfsRead files stack nfsReadSize (s.iodesc i) size s.rpc s.turns with
    | none =>
      have hstep : (nfsStep files stack nfsReadSize s (.read i size)).2 = s := by
        rw [nfsStep,hx,nfsReturn]
      rw [hstep]
      refine ⟨fun _ _ _ _ _ h => ?_,hs⟩
      rw [hx] at h
      cases h
    | some out =>
      obtain ⟨e,resid,data,fp,rpc,turns⟩ := out
      have hstep : (nfsStep files stack nfsReadSize s (.read i size)).2 = ⟨rpc,Function.update s.iodesc i fp,turns⟩ := by
        rw [nfsStep,hx,nfsReturn]
      rw [hstep] at hxid ⊢
      obtain ⟨hn,hoff,hres⟩ := nfsReadLoop_spec hF hsize _ size [] (hs.off i) hok hs.numbered hx hxid
      refine ⟨?_,hs.update hn i hoff⟩
      intro resid₁ data₁ fp₁ rpc₁ turns₁ h
      rw [hx] at h
      simp only [Option.some.injEq,Prod.mk.injEq] at h
      obtain ⟨rfl,rfl,rfl,rfl,rfl,rfl⟩ := h
      obtain ⟨more,hdata,hmore,hfp,hresid⟩ := hres rfl
      rw [List.nil_append] at hdata
      rw [hdata]
      exact ⟨hmore,hfp,hresid⟩
  | seek i offset whence =>
    refine ⟨trivial,hs.update hs.numbered i ?_⟩
    rw [nfsSeek_off]
    exact hok.2

/-- Every read that returns 0 has the bytes of its own file, whatever the network does. -/
theorem nfs_reads_file (hF : ∀ fh, (files fh).length < 2^31) (hsize : nfsreadMinSize ≤ nfsReadSize) {s : NfsState}
    (hs : NfsOpen base s) (calls : List NfsCall)
    (hok : Along (nfsStep files stack nfsReadSize) (NfsOk files stack nfsReadSize base) s calls) :
    Along (nfsStep files stack nfsReadSize) (NfsReads files stack nfsReadSize) s calls :=
  Along.of_invariant (NfsOpen base) (nfsStep_spec hF hsize) calls s hs hok

end Files

section Run

/-- Two files of a server. -/
def twoFiles (fh : List UInt8) : List UInt8 := if fh = [1] then [10,11,12] else [20,21]

/-- Both are open; an answer of the portmapper and an answer with data arrive again. -/
def twoOpen : NfsState where
  rpc := ⟨0,[],[]⟩
  iodesc := fun i => ⟨1,0,if i = 0 then [1] else [2],0⟩
  turns := [some (0,.ok 2049 []),some (0,.ok 2049 []),none,some (1,.ok 1 []),some (1,.ok 1 []),some (2,.ok 9 []),
    some (2,.ok 9 []),some (3,.ok 9 []),some (4,.ok 9 [])].map fun i => ⟨0,true,i,0⟩

theorem nfs_reads_file_twice : answers (nfsStep twoFiles (fun _ _ => 0) 1024) twoOpen [.read 0 2,.read 1 5] =
      [some (0,[10,11]),some (0,[20,21])] ∧
    Along (nfsStep twoFiles (fun _ _ => 0) 1024) (NfsReads twoFiles (fun _ _ => 0) 1024) twoOpen [.read 0 2,.read 1 5] := by
  have hopen : NfsOpen 0 twoOpen := by
    refine ⟨⟨le_rfl,?_⟩,fun _ => ⟨le_rfl,?_⟩⟩
    · intro q hq
      cases hq
    · show (0 : ℤ) < 2^31
      decide
  refine ⟨by decide +kernel,nfs_reads_file ?_ (by decide) hopen _ ⟨⟨?_,?_⟩,⟨?_,?_⟩,trivial⟩⟩
  · intro fh
    rw [twoFiles]
    split_ifs <;> decide
  all_goals decide +kernel

end Run

end Blub.Stand
