import Blub.Stand.Nfs

/-! What the decoders of `nfs.c` read of a reply and what they store of it, byte by byte. A reply is any
content of the receive buffer, with the size that `rpc_call` returned for it. -/
namespace Blub.Stand.NfsReply
open Blub.Bytes

def eio : ℤ := 5
def enametoolong : ℤ := 63
def nfsFhsize : ℕ := 32
def nfsFattrsize : ℕ := 68
def nfsMaxpathlen : ℕ := 1024
def nfsReaddirsize : ℕ := 1024

/-- A byte that is looked at, and how many there are. -/
structure Access where
  index : ℕ
  limit : ℕ

/-- A byte that is stored, and how much room there is. -/
structure Store extends Access where
  byte : UInt8

def Access.Inside (a : Access) : Prop := a.index < a.limit

/-- What a function returns, with what it reads of the reply and what it stores for its caller. -/
structure Decoded (ρ : Type*) where
  result : ρ
  read : List Access
  stored : List Store

/-- Only received bytes were used, and only the room of the caller was. -/
def Decoded.Sound {ρ : Type*} (d : Decoded ρ) : Prop :=
  (∀ a ∈ d.read, a.Inside) ∧ ∀ s ∈ d.stored, s.Inside

/-- What `rpc_call` returns, or its error number, and what the buffer holds then. -/
structure Reply (rlen : ℕ) where
  cc : Except ℤ ℕ
  data : ℕ → UInt8
  accepted : ∀ n, cc = .ok n → 0 < n ∧ n ≤ rlen

section Accepted
variable {files : List UInt8 → List UInt8} {stack : ℕ → ℕ → UInt8}

theorem recvrpc_got {len xid n : ℕ} {input : Option (ℕ × Answer)} {io io' : RpcIo}
    (h : recvrpc files len xid input io = (.got n,io')) : n ≤ len := by
  unfold recvrpc readudp at h
  cases hd : datagram files io.sent input with
  | none =>
    rw [hd] at h
    cases h
  | some p =>
    rw [hd] at h
    by_cases hlen : p.length ≤ len
    · simp only [if_pos hlen] at h
      split_ifs at h
      all_goals
        simp only [Prod.mk.injEq,Recv.got.injEq,reduceCtorEq,false_and] at h
      omega
    · simp only [if_neg hlen,Prod.mk.injEq,reduceCtorEq,false_and] at h

/-- What `rpc_call` accepts is not empty and fits. -/
theorem rpcCallPort_accepted {port : ℤ} {proc : Proc} {rlen : ℕ} {s s' : Rpc} {turns rest : List RpcTurn}
    {r : Except ℤ ℕ} {buf : ℕ → UInt8} (h : rpcCallPort files stack port proc rlen s turns = some (r,buf,s',rest)) :
    ∀ n, r = .ok n → 0 < n ∧ n ≤ rlen := by
  unfold rpcCallPort at h
  dsimp only at h
  split at h
  · cases h
  · rename_i hx
    simp only [Option.some.injEq,Prod.mk.injEq] at h
    have hgot := (sendrecv_rule_forall (P := fun _ => True) (I := fun _ => True)
      (Q := fun recv _ => ∀ n, recv = .got n → n ≤ rpcReplySize+rlen) (fun _ _ => trivial) (fun _ _ _ _ _ _ => trivial)
      (fun i io recv io' _ _ hr _ n hn => recvrpc_got (hn ▸ hr)) (fun _ _ n hn => by cases hn)
      (fun _ _ => trivial) trivial hx).1
    intro n hn
    rename_i recv io turns'
    rw [← h.1] at hn
    cases recv with
    | again => cases hn
    | error e => cases hn
    | got cc =>
      have hle := hgot cc rfl
      simp only [rpcCheck] at hn
      split_ifs at hn with h₁ h₂ h₃
      injection hn with hn
      omega

/-- The reply that a call brings. -/
def Reply.ofCall {port : ℤ} {proc : Proc} {rlen : ℕ} {s s' : Rpc} {turns rest : List RpcTurn} {r : Except ℤ ℕ}
    {buf : ℕ → UInt8} (h : rpcCallPort files stack port proc rlen s turns = some (r,buf,s',rest)) : Reply rlen where
  cc := r
  data := fun j => buf (rpcReplySize+j)
  accepted := rpcCallPort_accepted h

end Accepted

/-- Reading `n` bytes from `o` on, of `limit`. -/
def span (limit o n : ℕ) : List Access := (List.range n).map fun j => ⟨o+j,limit⟩

/-- `bcopy` of `n` bytes to `o`, where there are `limit`. -/
def bcopy (src : ℕ → UInt8) (limit o n : ℕ) : List Store := (List.range n).map fun j => ⟨⟨o+j,limit⟩,src j⟩

/-- `sizeof(long)` and `sizeof(size_t)`. -/
inductive Abi
  | ilp32
  | lp64
  deriving DecidableEq

def Abi.bits : Abi → ℕ
  | .ilp32 => 32
  | .lp64 => 64

section Code

/-- An error number in a reply, as an `int`. -/
def status (b : ℕ → UInt8) : ℤ := Int.bmod (beWord b 0) (2^32)

def nfsGetrootfh (r : Reply (4+nfsFhsize)) : Decoded ℤ :=
  match r.cc with
  | .error e => ⟨e,[],[]⟩
  | .ok cc =>
    if cc < 4 then ⟨ebadrpc,[],[]⟩
    else if beWord r.data 0 ≠ 0 then ⟨status r.data,span cc 0 4,[]⟩
    else ⟨0,span cc 0 4 ++ span cc 4 nfsFhsize,bcopy (fun j => r.data (4+j)) nfsFhsize 0 nfsFhsize⟩

/-- The handle of `newfd` is followed by its attributes. -/
def nfsLookupfh (r : Reply (4+nfsFhsize+nfsFattrsize)) : Decoded ℤ :=
  match r.cc with
  | .error e => ⟨e,[],[]⟩
  | .ok cc =>
    if cc < 4 then ⟨eio,[],[]⟩
    else if beWord r.data 0 ≠ 0 then ⟨status r.data,span cc 0 4,[]⟩
    else ⟨0,span cc 0 4 ++ (span cc 4 nfsFhsize ++ span cc (4+nfsFhsize) nfsFattrsize),
      bcopy (fun j => r.data (4+j)) (nfsFhsize+nfsFattrsize) 0 nfsFhsize ++
        bcopy (fun j => r.data (4+nfsFhsize+j)) (nfsFhsize+nfsFattrsize) nfsFhsize nfsFattrsize⟩

def nfsReadlink (r : Reply (8+nfsMaxpathlen)) : Decoded ℤ :=
  match r.cc with
  | .error e => ⟨e,[],[]⟩
  | .ok cc =>
    if cc < 4 then ⟨eio,[],[]⟩
    else if beWord r.data 0 ≠ 0 then ⟨status r.data,span cc 0 4,[]⟩
    else
      let len := beWord r.data 4
      if nfsMaxpathlen < len then ⟨enametoolong,span cc 0 4 ++ span cc 4 4,[]⟩
      else ⟨0,span cc 0 4 ++ (span cc 4 4 ++ span cc 8 len),
        bcopy (fun j => r.data (8+j)) (nfsMaxpathlen+1) 0 len ++ [⟨⟨len,nfsMaxpathlen+1⟩,0⟩]⟩

/-- `ntohl(repl->count)` as a `long`. -/
def count (w : Abi) (r : Reply (nfsReadHlen+nfsreadMaxSize)) : ℤ := Int.bmod (beWord r.data 72) (2^w.bits)

/-- `nfs_readdata`: `errno` in front of `-1`, or the count. The count is a `size_t` for `bcopy`. -/
def nfsReaddata (w : Abi) (len : ℕ) (r : Reply (nfsReadHlen+nfsreadMaxSize)) : Decoded (Except ℤ ℤ) :=
  match r.cc with
  | .error e => ⟨.error e,[],[]⟩
  | .ok cc =>
    if cc < nfsReadHlen then ⟨.error ebadrpc,[],[]⟩
    else if beWord r.data 0 ≠ 0 then ⟨.error (status r.data),span cc 0 4,[]⟩
    else
      let rlen : ℤ := cc-nfsReadHlen
      let x := count w r
      if rlen < x then ⟨.error ebadrpc,span cc 0 4 ++ span cc 72 4,[]⟩
      else
        let n := (x%2^w.bits).toNat
        ⟨.ok x,span cc 0 4 ++ (span cc 72 4 ++ span cc nfsReadHlen n),bcopy (fun j => r.data (nfsReadHlen+j)) len 0 n⟩

/-- The width of `d_namlen` and the size of `d_name`. -/
structure Dirent where
  namlenBits : ℕ
  nameSize : ℕ

/-- The static variables of `nfs_readdir`: `buf` as an offset into the data of `rdata`, the cookie, the
data, and how much of it was received. -/
structure DirStatics where
  buf : ℕ
  cookie : ℕ
  data : ℕ → UInt8
  got : ℕ

inductive DirResult
  | eio
  | enoent
  | found (namlen : ℕ) (name : List UInt8)
  deriving DecidableEq

structure DirCall extends Decoded DirResult where
  statics : DirStatics

namespace DirStatics
variable (s : DirStatics)

/-- `ntohl(roff->follows)`. -/
def follows : ℕ := beWord s.data (s.buf+4)

/-- `ntohl((roff+1)->cookie)`. -/
def eof : ℕ := beWord s.data (s.buf+8)

/-- `ntohl(rd->len)`. -/
def len : ℕ := beWord s.data (s.buf+12)

/-- The call of `rpc_call`, whatever it returns. -/
def received (r : Reply nfsReaddirsize) : DirStatics :=
  {s with buf := 0, data := r.data, got := match r.cc with | .ok cc => cc | .error _ => 0}

end DirStatics

/-- `sizeof(struct nfs_readdir_data) + roundup(htonl(rd->len),4)`. -/
def advance (w : Abi) (len : ℕ) : ℕ := (8+(len+3)%2^32/4*4)%2^w.bits

variable (w : Abi) (dir : Dirent)

/-- The end of `nfs_readdir`: the entry behind `buf`. -/
def nfsEntry (s : DirStatics) (acc : List Access) : DirCall :=
  let namlen := s.len%2^dir.namlenBits
  let next := s.buf+8+advance w s.len
  let name := fun j => s.data (s.buf+16+j)
  ⟨⟨.found namlen ((List.range namlen).map name),
    acc ++ (span s.got (s.buf+12) 4 ++ (span s.got (s.buf+16) namlen ++ span s.got next 4)),
    bcopy name dir.nameSize 0 namlen ++ [⟨⟨namlen,dir.nameSize⟩,0⟩]⟩,
    {s with buf := next, cookie := beWord s.data next}⟩

/-- What is done at `buf`, where `refill` is what is behind that label. -/
def nfsLook (refill : DirStatics → List Access → Option DirCall) (s : DirStatics) (acc : List Access) : Option DirCall :=
  let acc := acc ++ span s.got (s.buf+4) 4
  if s.follows = 0 then
    let acc := acc ++ span s.got (s.buf+8) 4
    if s.eof ≠ 0 then some ⟨⟨.enoent,acc,[]⟩,{s with cookie := 0}⟩ else refill s acc
  else some (nfsEntry w dir s acc)

/-- What is behind the label `refill`, with the replies to the calls that it makes. -/
def nfsRefill : List (Reply nfsReaddirsize) → DirStatics → List Access → Option DirCall
  | [], _, _ => none
  | r :: rs, s, acc =>
    let s := s.received r
    let acc := acc ++ span s.got 0 4
    if beWord s.data 0 ≠ 0 then some ⟨⟨.eio,acc,[]⟩,s⟩ else nfsLook w dir (nfsRefill rs) s acc

/-- `nfs_readdir`. All calls that it makes are for the handle of the file and the cookie it starts with. -/
def nfsReaddir (rs : List (Reply nfsReaddirsize)) (s : DirStatics) : Option DirCall :=
  if s.cookie = 0 then nfsRefill w dir rs s [] else nfsLook w dir (nfsRefill w dir rs) s []

attribute [local grind =] nfsRefill

end Code

section Spans

theorem span_inside {limit o n : ℕ} : (∀ a ∈ span limit o n, a.Inside) ↔ n = 0 ∨ o+n ≤ limit := by
  simp only [span,List.forall_mem_map,List.mem_range,Access.Inside]
  constructor
  · intro h
    cases n with
    | zero => exact .inl rfl
    | succ n => exact .inr (h n (Nat.lt_succ_self n))
  · intro h j hj
    omega

theorem bcopy_inside {src : ℕ → UInt8} {limit o n : ℕ} :
    (∀ s ∈ bcopy src limit o n, s.Inside) ↔ n = 0 ∨ o+n ≤ limit := by
  simp only [bcopy,List.forall_mem_map,List.mem_range,Access.Inside]
  constructor
  · intro h
    cases n with
    | zero => exact .inl rfl
    | succ n => exact .inr (h n (Nat.lt_succ_self n))
  · intro h j hj
    omega

theorem inside_mk {index limit : ℕ} : (⟨index,limit⟩ : Access).Inside ↔ index < limit := Iff.rfl

end Spans

section Decoders

/-- An error number of a reply is not 0. -/
theorem status_ne_zero {b : ℕ → UInt8} (h : beWord b 0 ≠ 0) : status b ≠ 0 := by
  intro hz
  have hdvd : ((2^32 : ℕ) : ℤ) ∣ (beWord b 0 : ℕ) := Int.dvd_of_bmod_eq_zero hz
  rw [Int.natCast_dvd_natCast] at hdvd
  have hle := Nat.le_of_dvd (Nat.pos_of_ne_zero h) hdvd
  have hlt := beWord_lt b 0
  omega

/-- The mount reply has to bring the whole handle. -/
theorem nfsGetrootfh_sound_iff (r : Reply (4+nfsFhsize)) :
    ((nfsGetrootfh r).result = 0 → (nfsGetrootfh r).Sound) ↔
      ∀ cc, r.cc = .ok cc → 4 ≤ cc → beWord r.data 0 = 0 → 4+nfsFhsize ≤ cc := by
  unfold nfsGetrootfh
  cases hcc : r.cc with
  | error e => simp [Decoded.Sound]
  | ok cc =>
    simp only [Except.ok.injEq,forall_eq']
    split_ifs with h₁ h₂
    · simp [ebadrpc,h₁]
    · simp [h₂,status_ne_zero h₂]
    · simp only [Decoded.Sound,List.forall_mem_append,span_inside,bcopy_inside,nfsFhsize]
      rw [not_not] at h₂
      simp only [h₂,true_implies]
      omega

theorem nfsLookupfh_sound_iff (r : Reply (4+nfsFhsize+nfsFattrsize)) :
    ((nfsLookupfh r).result = 0 → (nfsLookupfh r).Sound) ↔
      ∀ cc, r.cc = .ok cc → 4 ≤ cc → beWord r.data 0 = 0 → 4+nfsFhsize+nfsFattrsize ≤ cc := by
  unfold nfsLookupfh
  cases hcc : r.cc with
  | error e => simp [Decoded.Sound]
  | ok cc =>
    simp only [Except.ok.injEq,forall_eq']
    split_ifs with h₁ h₂
    · simp [eio,h₁]
    · simp [h₂,status_ne_zero h₂]
    · simp only [Decoded.Sound,List.forall_mem_append,span_inside,bcopy_inside,nfsFhsize,nfsFattrsize]
      rw [not_not] at h₂
      simp only [h₂,true_implies]
      omega

/-- The text of a link has to be in the reply. It is never too long for its buffer. -/
theorem nfsReadlink_sound_iff (r : Reply (8+nfsMaxpathlen)) :
    ((nfsReadlink r).result = 0 → (nfsReadlink r).Sound) ↔
      ∀ cc, r.cc = .ok cc → 4 ≤ cc → beWord r.data 0 = 0 → beWord r.data 4 ≤ nfsMaxpathlen → 8+beWord r.data 4 ≤ cc := by
  unfold nfsReadlink
  cases hcc : r.cc with
  | error e => simp [Decoded.Sound]
  | ok cc =>
    simp only [Except.ok.injEq,forall_eq']
    split_ifs with h₁ h₂ h₃
    · simp [eio,h₁]
    · simp [h₂,status_ne_zero h₂]
    · simp [enametoolong,h₃]
    · simp only [Decoded.Sound,List.forall_mem_append,span_inside,bcopy_inside,List.forall_mem_singleton,inside_mk]
      rw [not_not] at h₂
      rw [not_lt] at h₃
      simp only [h₂,true_implies]
      omega

theorem bits_le (w : Abi) : 2^32 ≤ 2^w.bits := Nat.pow_le_pow_right (by decide) (by cases w <;> decide)

/-- A negative count is a huge number of bytes. -/
theorem count_toNat (w : Abi) (r : Reply (nfsReadHlen+nfsreadMaxSize)) :
    if 0 ≤ count w r then (count w r%(2^w.bits : ℕ)).toNat = (count w r).toNat
    else 2^31 ≤ (count w r%(2^w.bits : ℕ)).toNat := by
  have hpos : 0 < 2^w.bits := Nat.two_pow_pos _
  have hbits := bits_le w
  have hlow := Int.le_bmod (x := beWord r.data 72) hpos
  have hhigh := Int.bmod_lt (x := beWord r.data 72) hpos
  have hdef : count w r = Int.bmod (beWord r.data 72) (2^w.bits) := rfl
  rw [← hdef] at hlow hhigh
  generalize count w r = x at hlow hhigh ⊢
  generalize 2^w.bits = m at *
  split_ifs with hx
  · rw [Int.emod_eq_of_lt hx (by omega)]
  · have hmod : x%(m : ℤ) = x+m := by
      rw [← Int.add_emod_right,Int.emod_eq_of_lt (by omega) (by omega)]
    rw [hmod]
    omega

/-- A count that is not refused has to be no negative `long` and no more than the caller has room for. A
count of `-1` is taken for an error by the callers. -/
theorem nfsReaddata_sound_iff (w : Abi) (len : ℕ) (r : Reply (nfsReadHlen+nfsreadMaxSize)) :
    ((∃ x, x ≠ -1 ∧ (nfsReaddata w len r).result = .ok x) → (nfsReaddata w len r).Sound) ↔
      ∀ cc : ℕ, r.cc = .ok cc → nfsReadHlen ≤ cc → beWord r.data 0 = 0 → count w r ≤ cc-nfsReadHlen →
        count w r ≠ -1 → 0 ≤ count w r ∧ count w r ≤ len := by
  unfold nfsReaddata
  cases hcc : r.cc with
  | error e => simp
  | ok cc =>
    simp only [Except.ok.injEq,forall_eq']
    split_ifs with h₁ h₂ h₃
    · simp [h₁]
    · simp [h₂]
    · simp [h₃]
    · have hcc' := (r.accepted cc hcc).2
      have hn := count_toNat w r
      rw [not_not] at h₂
      simp only [Decoded.Sound,List.forall_mem_append,span_inside,bcopy_inside,Except.ok.injEq,h₂,true_implies,Nat.cast_pow,
        Nat.cast_ofNat,nfsReadHlen,nfsreadMaxSize] at hn hcc' h₁ h₃ ⊢
      generalize (count w r%2^w.bits).toNat = n at hn ⊢
      have hex : (∃ x, x ≠ -1 ∧ count w r = x) ↔ count w r ≠ -1 := by simp
      rw [hex]
      split_ifs at hn
      · omega
      · omega

end Decoders

section Listing

/-- The entry that a call gets to from `buf`, and the ends of replies that it passes before. -/
def DirStatics.entryAt (s : DirStatics) (further : Option (List DirStatics × DirStatics)) :
    Option (List DirStatics × DirStatics) :=
  if s.follows ≠ 0 then some ([],s)
  else if s.eof ≠ 0 then none
  else further.map fun x => (s :: x.1,x.2)

def entryIn : List (Reply nfsReaddirsize) → DirStatics → Option (List DirStatics × DirStatics)
  | [], _ => none
  | r :: rs, s => if beWord r.data 0 ≠ 0 then none else (s.received r).entryAt (entryIn rs (s.received r))

/-- The entry that a call of `nfs_readdir` finds. -/
def entryOf (rs : List (Reply nfsReaddirsize)) (s : DirStatics) : Option (List DirStatics × DirStatics) :=
  if s.cookie = 0 then entryIn rs s else s.entryAt (entryIn rs s)

attribute [local grind =] entryIn

variable (w : Abi) (dir : Dirent)

/-- An entry lies in the reply, with the word behind it, and its name has room. -/
structure DirStatics.Fits (s : DirStatics) : Prop where
  name : s.buf+16+s.len%2^dir.namlenBits ≤ s.got
  next : s.buf+8+advance w s.len+4 ≤ s.got
  room : s.len%2^dir.namlenBits < dir.nameSize

/-- A call that finds an entry is sound. -/
def FindsSoundly (o : Option DirCall) : Prop :=
  ∀ c, o = some c → (∃ namlen name, c.result = .found namlen name) → c.Sound

/-- What has to hold of the entry and the ends, after these reads. -/
def Needs (acc : List Access) (found : Option (List DirStatics × DirStatics)) : Prop :=
  ∀ ends e, found = some (ends,e) → (∀ a ∈ acc, a.Inside) ∧ (∀ s ∈ ends, s.buf+12 ≤ s.got) ∧ e.Fits w dir

variable {w dir}

theorem nfsEntry_sound_iff (s : DirStatics) (acc : List Access) :
    (nfsEntry w dir s acc).Sound ↔ (∀ a ∈ acc, a.Inside) ∧ s.Fits w dir := by
  simp only [nfsEntry,Decoded.Sound,List.forall_mem_append,span_inside,bcopy_inside,List.forall_mem_singleton,inside_mk]
  constructor
  · rintro ⟨⟨hacc,h₁,h₂,h₃⟩,-,h₄⟩
    exact ⟨hacc,by omega,by omega,h₄⟩
  · rintro ⟨hacc,hname,hnext,hroom⟩
    exact ⟨⟨hacc,by omega,by omega,by omega⟩,by omega,hroom⟩

theorem nfsLook_sound_iff {refill : DirStatics → List Access → Option DirCall}
    {further : Option (List DirStatics × DirStatics)} (s : DirStatics)
    (hrefill : ∀ acc, FindsSoundly (refill s acc) ↔ Needs w dir acc further) (acc : List Access) :
    FindsSoundly (nfsLook w dir refill s acc) ↔ Needs w dir acc (s.entryAt further) := by
  unfold nfsLook DirStatics.entryAt
  by_cases hfollows : s.follows = 0
  · rw [if_pos hfollows,if_neg (not_not.mpr hfollows)]
    by_cases heof : s.eof ≠ 0
    · rw [if_pos heof,if_pos heof]
      constructor
      · intro _ ends e h
        cases h
      · rintro _ c hc ⟨namlen,name,hfound⟩
        rw [Option.some.injEq] at hc
        subst hc
        cases hfound
    · rw [if_neg heof,if_neg heof,hrefill]
      -- an end takes three words, of which the last two are looked at here
      constructor
      · intro h ends e hmap
        obtain ⟨⟨ends',e'⟩,hfurther,hx⟩ := Option.map_eq_some_iff.mp hmap
        rw [Prod.mk.injEq] at hx
        obtain ⟨rfl,rfl⟩ := hx
        obtain ⟨hacc,hends,hfits⟩ := h ends' e' hfurther
        simp only [List.forall_mem_append,span_inside] at hacc
        exact ⟨hacc.1.1,List.forall_mem_cons.mpr ⟨by omega,hends⟩,hfits⟩
      · intro h ends e hfurther
        obtain ⟨hacc,hends,hfits⟩ := h (s :: ends) e (by rw [hfurther,Option.map_some])
        rw [List.forall_mem_cons] at hends
        simp only [List.forall_mem_append,span_inside]
        exact ⟨⟨⟨hacc,by omega⟩,by omega⟩,hends.2,hfits⟩
  · rw [if_neg hfollows,if_pos hfollows]
    constructor
    · intro h ends e hx
      rw [Option.some.injEq,Prod.mk.injEq] at hx
      obtain ⟨rfl,rfl⟩ := hx
      have hsound := h _ rfl ⟨_,_,rfl⟩
      rw [nfsEntry_sound_iff,List.forall_mem_append] at hsound
      exact ⟨hsound.1.1,by simp,hsound.2⟩
    · intro h c hc _
      rw [Option.some.injEq] at hc
      subst hc
      obtain ⟨hacc,-,hfits⟩ := h [] s rfl
      rw [nfsEntry_sound_iff,List.forall_mem_append,span_inside]
      have hname := hfits.name
      exact ⟨⟨hacc,by omega⟩,hfits⟩

/-- Where a call begins to look it finds its entry, or it passes by. -/
theorem entryAt_passes {s e : DirStatics} {further : Option (List DirStatics × DirStatics)} {ends : List DirStatics}
    (h : s.entryAt further = some (ends,e)) : s = e ∨ s ∈ ends := by
  unfold DirStatics.entryAt at h
  split_ifs at h
  · rw [Option.some.injEq,Prod.mk.injEq] at h
    exact .inl h.2
  · obtain ⟨x,-,hx⟩ := Option.map_eq_some_iff.mp h
    rw [Prod.mk.injEq] at hx
    exact .inr (hx.1 ▸ List.mem_cons_self)

theorem nfsRefill_sound_iff (rs : List (Reply nfsReaddirsize)) (s : DirStatics) (acc : List Access) :
    FindsSoundly (nfsRefill w dir rs s acc) ↔ Needs w dir acc (entryIn rs s) := by
  induction rs generalizing s acc with
  | nil => exact ⟨fun _ _ _ h => absurd h (by simp [entryIn]),fun _ _ h => absurd h (by simp [nfsRefill])⟩
  | cons r rs ih =>
    simp only [nfsRefill,entryIn]
    have hdata : (s.received r).data = r.data := rfl
    rw [hdata]
    by_cases hstatus : beWord r.data 0 ≠ 0
    · rw [if_pos hstatus,if_pos hstatus]
      constructor
      · intro _ ends e h
        cases h
      · rintro _ c hc ⟨namlen,name,hfound⟩
        rw [Option.some.injEq] at hc
        subst hc
        cases hfound
    · rw [if_neg hstatus,if_neg hstatus,nfsLook_sound_iff _ (ih _)]
      constructor
      · intro h ends e hx
        obtain ⟨hacc,hrest⟩ := h ends e hx
        exact ⟨(List.forall_mem_append.mp hacc).1,hrest⟩
      · intro h ends e hx
        obtain ⟨hacc,hends,hfits⟩ := h ends e hx
        have hgot : 4 ≤ (s.received r).got := by
          obtain rfl | hmem := entryAt_passes hx
          · have hname := hfits.name
            omega
          · have hend := hends _ hmem
            omega
        rw [List.forall_mem_append,span_inside]
        exact ⟨⟨hacc,.inr (by omega)⟩,hends,hfits⟩

/-- A call that finds an entry has used received bytes only, and the room of the name, exactly when the entry
and the ends of replies in front of it lie in what was received and the name has room. -/
theorem nfsReaddir_sound_iff (rs : List (Reply nfsReaddirsize)) (s : DirStatics) :
    FindsSoundly (nfsReaddir w dir rs s) ↔
      ∀ ends e, entryOf rs s = some (ends,e) → (∀ s ∈ ends, s.buf+12 ≤ s.got) ∧ e.Fits w dir := by
  have hnone : ∀ found, Needs w dir [] found ↔
      ∀ ends e, found = some (ends,e) → (∀ s ∈ ends, s.buf+12 ≤ s.got) ∧ e.Fits w dir :=
    fun found => ⟨fun h ends e hx => (h ends e hx).2,fun h ends e hx => ⟨by simp,h ends e hx⟩⟩
  rw [nfsReaddir,entryOf,← hnone]
  split_ifs
  · exact nfsRefill_sound_iff rs s []
  · exact nfsLook_sound_iff s (fun acc => nfsRefill_sound_iff rs s acc) []

end Listing

/-- What is asked of the five decoders for one reply, or as many as `nfs_readdir` takes: whoever reports success
has used only received bytes and has stored only in the room of its caller. -/
def RepliesTrusted (w : Abi) (dir : Dirent) (len : ℕ) (root : Reply (4+nfsFhsize))
    (found : Reply (4+nfsFhsize+nfsFattrsize)) (link : Reply (8+nfsMaxpathlen)) (data : Reply (nfsReadHlen+nfsreadMaxSize))
    (rs : List (Reply nfsReaddirsize)) (s : DirStatics) : Prop :=
  ((nfsGetrootfh root).result = 0 → (nfsGetrootfh root).Sound) ∧
  ((nfsLookupfh found).result = 0 → (nfsLookupfh found).Sound) ∧
  ((nfsReadlink link).result = 0 → (nfsReadlink link).Sound) ∧
  ((∃ x, x ≠ -1 ∧ (nfsReaddata w len data).result = .ok x) → (nfsReaddata w len data).Sound) ∧
  FindsSoundly (nfsReaddir w dir rs s)

theorem nfs_repliesTrusted_iff (w : Abi) (dir : Dirent) (len : ℕ) (root : Reply (4+nfsFhsize))
    (found : Reply (4+nfsFhsize+nfsFattrsize)) (link : Reply (8+nfsMaxpathlen)) (data : Reply (nfsReadHlen+nfsreadMaxSize))
    (rs : List (Reply nfsReaddirsize)) (s : DirStatics) :
    RepliesTrusted w dir len root found link data rs s ↔
    (∀ cc, root.cc = .ok cc → 4 ≤ cc → beWord root.data 0 = 0 → 4+nfsFhsize ≤ cc) ∧
    (∀ cc, found.cc = .ok cc → 4 ≤ cc → beWord found.data 0 = 0 → 4+nfsFhsize+nfsFattrsize ≤ cc) ∧
    (∀ cc, link.cc = .ok cc → 4 ≤ cc → beWord link.data 0 = 0 → beWord link.data 4 ≤ nfsMaxpathlen →
      8+beWord link.data 4 ≤ cc) ∧
    (∀ cc : ℕ, data.cc = .ok cc → nfsReadHlen ≤ cc → beWord data.data 0 = 0 → count w data ≤ cc-nfsReadHlen →
      count w data ≠ -1 → 0 ≤ count w data ∧ count w data ≤ len) ∧
    ∀ ends e, entryOf rs s = some (ends,e) → (∀ s ∈ ends, s.buf+12 ≤ s.got) ∧ e.Fits w dir := by
  rw [RepliesTrusted,nfsGetrootfh_sound_iff,nfsLookupfh_sound_iff,nfsReadlink_sound_iff,nfsReaddata_sound_iff,
    nfsReaddir_sound_iff]

def unanswered (rlen : ℕ) : Reply rlen := ⟨.error ebadrpc,fun _ => 0,fun _ h => nomatch h⟩

/-- A reply of eight bytes to a READLINK: the status 0 and the length 1024. -/
def shortLink : Reply (8+nfsMaxpathlen) where
  cc := .ok 8
  data := ofList [0,0,0,0,0,0,4,0]
  accepted := by
    intro n hn
    injection hn with hn
    subst hn
    decide

theorem nfs_repliesTrusted_fails : ¬ ∀ w dir len root found link data rs s,
    RepliesTrusted w dir len root found link data rs s := by
  intro h
  have hall := h .lp64 ⟨16,256⟩ 0 (unanswered _) (unanswered _) shortLink (unanswered _) [] ⟨0,0,fun _ => 0,0⟩
  have hlen := (nfsReadlink_sound_iff shortLink).mp hall.2.2.1 8 rfl (by decide) (by decide) (by decide)
  revert hlen
  decide

end Blub.Stand.NfsReply
