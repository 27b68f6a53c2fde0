import Blub.Lib.Trace

/-! `read` and `lseek` of libstand, with the read-ahead buffer they keep in front of a file system,
against a plain file with one position. -/
namespace Blub.Stand
open Blub.Trace

inductive Whence
  | set
  | cur
  | «end»
  deriving DecidableEq, Repr

/-- What a read of a file system or a device does: `errno`, the bytes stored, and the last argument. -/
structure IoReply where
  errno : ℤ
  data : List UInt8
  resid : ℕ

/-- The operations of a file system, and of the device below it, on a state `τ` of theirs. -/
structure FsOps (τ : Type*) where
  foRead : τ → ℕ → IoReply × τ
  foSeek : τ → ℤ → Whence → ℤ × τ
  dvStrategy : τ → ℤ → ℕ → IoReply × τ

structure OpenFile (τ : Type*) where
  canRead : Bool
  canWrite : Bool
  raw : Bool
  offset : ℤ
  rabuf : List UInt8
  ralen : ℕ
  raoffset : ℕ
  fsdata : τ

/-- The value of `read`, and what it stored from `dest` on. -/
structure ReadReply where
  ret : ℤ
  data : List UInt8
  deriving DecidableEq, Repr

def sopenRasize : ℕ := 512

/-- `imin`, which takes `int` arguments. -/
def imin (a b : ℕ) : ℤ := min (Int.bmod a (2^32)) (Int.bmod b (2^32))

section Code
variable {τ : Type*} (ops : FsOps τ)

/-- The loop of `read`. No result: a copy of a negative size, or a loop that does not end in `fuel`
turns. -/
def readLoop (bcount : ℕ) : ℕ → OpenFile τ → ℕ → List UInt8 → Option (ReadReply × OpenFile τ)
  | 0, _, _, _ => none
  | fuel+1, f, resid, dest =>
    if imin f.ralen resid < 0 then none
    else
      let ccount := (imin f.ralen resid).toNat
      let dest := dest ++ (f.rabuf.drop f.raoffset).take ccount
      let f := {f with raoffset := f.raoffset+ccount, ralen := f.ralen-ccount}
      if 0 < ccount ∧ resid-ccount = 0 then some (⟨bcount,dest⟩,f)
      else
        let resid := resid-ccount
        if sopenRasize ≤ resid then
          let (r,t) := ops.foRead f.fsdata resid
          let f := {f with fsdata := t}
          if r.errno ≠ 0 then some (⟨-1,dest ++ r.data⟩,f)
          else some (⟨(bcount : ℤ)-r.resid,dest ++ r.data⟩,f)
        else
          let (r,t) := ops.foRead f.fsdata sopenRasize
          let f := {f with fsdata := t, rabuf := r.data ++ f.rabuf.drop r.data.length}
          if r.errno ≠ 0 then some (⟨-1,dest⟩,f)
          else
            let f := {f with raoffset := 0, ralen := sopenRasize-r.resid}
            if f.ralen = 0 then some (⟨(bcount : ℤ)-resid,dest⟩,f)
            else readLoop bcount fuel f resid dest

def read (fuel : ℕ) (f : OpenFile τ) (bcount : ℕ) : Option (ReadReply × OpenFile τ) :=
  if f.canRead = false then some (⟨-1,[]⟩,f)
  else if f.raw then
    let (r,t) := ops.dvStrategy f.fsdata (f.offset/512) bcount
    let f := {f with fsdata := t}
    if r.errno ≠ 0 then some (⟨-1,r.data⟩,f)
    else some (⟨r.resid,r.data⟩,{f with offset := f.offset+r.resid})
  else readLoop ops bcount fuel f bcount []

/-- The last part of `lseek`, behind the buffer. -/
def lseekFs (f : OpenFile τ) (offset : ℤ) (whence : Whence) : ℤ × OpenFile τ :=
  let offset := if whence = .cur then offset-f.ralen else offset
  let r := ops.foSeek f.fsdata offset whence
  (r.1,{f with ralen := 0, fsdata := r.2})

def lseek (f : OpenFile τ) (offset : ℤ) (whence : Whence) : ℤ × OpenFile τ :=
  if f.canRead = false ∧ f.canWrite = false ∧ f.raw = false then (-1,f)
  else if f.raw then
    match whence with
    | .set => (offset,{f with offset := offset})
    | .cur => (f.offset+offset,{f with offset := f.offset+offset})
    | .end => (-1,f)
  else if f.ralen ≠ 0 ∧ whence ≠ .end then
    let r := ops.foSeek f.fsdata 0 .cur
    let filepos := r.1
    let f := {f with fsdata := r.2}
    if filepos = -1 then (-1,f)
    else
      let bufpos := filepos-f.ralen
      let target := if whence = .set then offset else bufpos+offset
      if bufpos ≤ target ∧ target < filepos then
        (target,{f with raoffset := f.raoffset+(target-bufpos).toNat, ralen := f.ralen-(target-bufpos).toNat})
      else lseekFs ops f offset whence
  else lseekFs ops f offset whence

attribute [local grind =] readLoop lseek

end Code

inductive FileCall
  | read (n : ℕ)
  | lseek (offset : ℤ) (whence : Whence)
  deriving DecidableEq, Repr

inductive FileAnswer
  | read (r : ReadReply)
  | lseek (pos : ℤ)
  deriving DecidableEq, Repr

section Runs
variable {τ : Type*} (ops : FsOps τ)

/-- One call on an open file; no answer if it does not return. -/
def fileStep (fuel : ℕ) (f : OpenFile τ) : FileCall → Option FileAnswer × OpenFile τ
  | .read n =>
    match read ops fuel f n with
    | none => (none,f)
    | some (r,f') => (some (.read r),f')
  | .lseek offset whence => (some (.lseek (lseek ops f offset whence).1),(lseek ops f offset whence).2)

/-- Where a relative or absolute seek from `p` goes. -/
def seekTarget (p : ℕ) (offset : ℤ) : Whence → ℤ
  | .cur => p+offset
  | _ => offset

/-- The same call on a plain file with one position. -/
def plainStep (file : List UInt8) (p : ℕ) : FileCall → Option FileAnswer × ℕ
  | .read n => (some (.read ⟨((file.drop p).take n).length,(file.drop p).take n⟩),p+((file.drop p).take n).length)
  | .lseek offset whence => (some (.lseek (seekTarget p offset whence)),(seekTarget p offset whence).toNat)

/-- The file system serves `file` from a position `pos` of its own. -/
structure Serves (file : List UInt8) (pos : τ → ℕ) : Prop where
  read (t : τ) (n : ℕ) : (ops.foRead t n).1 = ⟨0,(file.drop (pos t)).take n,n-((file.drop (pos t)).take n).length⟩
  read_pos (t : τ) (n : ℕ) : pos (ops.foRead t n).2 = pos t+((file.drop (pos t)).take n).length
  seek (t : τ) (offset : ℤ) (whence : Whence) : whence ≠ .end → 0 ≤ seekTarget (pos t) offset whence →
    (ops.foSeek t offset whence).1 = seekTarget (pos t) offset whence ∧
    (pos (ops.foSeek t offset whence).2 : ℤ) = seekTarget (pos t) offset whence

/-- One read of the file system serves `file` from its position on. -/
structure ServesAt (file : List UInt8) (pos : τ → ℕ) (t : τ) (n : ℕ) : Prop where
  read : (ops.foRead t n).1 = ⟨0,(file.drop (pos t)).take n,n-((file.drop (pos t)).take n).length⟩
  read_pos : pos (ops.foRead t n).2 = pos t+((file.drop (pos t)).take n).length

/-- One seek of the file system is followed. -/
def SeeksAt (pos : τ → ℕ) (t : τ) (offset : ℤ) (whence : Whence) : Prop :=
  (ops.foSeek t offset whence).1 = seekTarget (pos t) offset whence ∧
  (pos (ops.foSeek t offset whence).2 : ℤ) = seekTarget (pos t) offset whence

/-- Seeks go to a position of a file, reads are shorter than `2^31`, and nothing is read by a read of
no bytes except at the end of the file. -/
def CallOk (file : List UInt8) (pos : τ → ℕ) (f : OpenFile τ) : FileCall → Prop
  | .read n => n < 2^31 ∧ (n = 0 → file.length ≤ pos f.fsdata-f.ralen)
  | .lseek offset whence => whence ≠ .end ∧ 0 ≤ seekTarget (pos f.fsdata-f.ralen) offset whence

attribute [local grind =] fileStep

end Runs

theorem bmod_of_lt {n : ℕ} (hn : n < 2^31) : Int.bmod n (2^32) = n := by
  apply Int.bmod_eq_of_le
  · norm_num
  · norm_num
    omega

theorem imin_eq {a b : ℕ} (ha : a < 2^31) (hb : b < 2^31) : imin a b = (min a b : ℕ) := by
  unfold imin
  rw [bmod_of_lt ha,bmod_of_lt hb]
  exact (Nat.cast_min a b).symm

section Transparency
variable {τ : Type*} {ops : FsOps τ} {file : List UInt8} {pos : τ → ℕ}

/-- The open file is a regular one whose caller is at position `p`. What is left in the buffer is
what the file holds from there on. -/
structure At (file : List UInt8) (pos : τ → ℕ) (f : OpenFile τ) (p : ℕ) : Prop where
  canRead : f.canRead = true
  regular : f.raw = false
  pos_eq : pos f.fsdata = p+f.ralen
  short : f.ralen ≤ sopenRasize
  held : (f.rabuf.drop f.raoffset).take f.ralen = (file.drop p).take f.ralen
  inside : f.ralen = 0 ∨ p+f.ralen ≤ file.length

theorem At.chunk {f : OpenFile τ} {p c : ℕ} (h : At file pos f p) (hc : c ≤ f.ralen) :
    (f.rabuf.drop f.raoffset).take c = (file.drop p).take c := by
  have := congrArg (List.take c) h.held
  rwa [List.take_take,List.take_take,min_eq_left hc] at this

/-- Bytes are taken out of the front of the buffer. -/
theorem At.consume {f : OpenFile τ} {p c : ℕ} (h : At file pos f p) (hc : c ≤ f.ralen) :
    At file pos {f with raoffset := f.raoffset+c, ralen := f.ralen-c} (p+c) where
  canRead := h.canRead
  regular := h.regular
  pos_eq := by
    have := h.pos_eq
    simp only
    omega
  short := (Nat.sub_le _ _).trans h.short
  held := by
    have := congrArg (List.drop c) h.held
    rw [List.drop_take,List.drop_take,List.drop_drop,List.drop_drop] at this
    exact this
  inside := by
    have := h.inside
    simp only
    omega

/-- The next bytes of the file, behind those a first read got. -/
theorem take_drop_append (file : List UInt8) (p : ℕ) {m n : ℕ} (hm : m ≤ n) :
    (file.drop p).take m ++ (file.drop (p+m)).take (n-m) = (file.drop p).take n := by
  obtain ⟨k,rfl⟩ := Nat.exists_eq_add_of_le hm
  rw [Nat.add_sub_cancel_left,List.take_add,List.drop_drop]

theorem Serves.at (hs : Serves ops file pos) (t : τ) (n : ℕ) : ServesAt ops file pos t n := ⟨hs.read t n,hs.read_pos t n⟩

/-- What `read` leaves when it has supplied `resid` more bytes, or all there are. -/
def Supplies (ops : FsOps τ) (file : List UInt8) (pos : τ → ℕ) (bcount fuel : ℕ) (f : OpenFile τ) (p resid : ℕ)
    (dest : List UInt8) : Prop :=
  ∃ f', readLoop ops bcount fuel f resid dest =
      some (⟨(bcount : ℤ)-((resid-((file.drop p).take resid).length : ℕ) : ℤ),dest ++ (file.drop p).take resid⟩,f') ∧
    At file pos f' (p+((file.drop p).take resid).length)

/-- A turn first takes what it can from the buffer. -/
theorem readLoop_turn {f : OpenFile τ} {p : ℕ} (h : At file pos f p) (bcount fuel : ℕ) {resid c : ℕ}
    (hlt : resid < 2^31) (hc : c = min f.ralen resid) (dest : List UInt8) :
    readLoop ops bcount (fuel+1) f resid dest =
      let dest := dest ++ (file.drop p).take c
      let f := {f with raoffset := f.raoffset+c, ralen := f.ralen-c}
      if 0 < c ∧ resid-c = 0 then some (⟨bcount,dest⟩,f)
      else if sopenRasize ≤ resid-c then
        let (r,t) := ops.foRead f.fsdata (resid-c)
        let f := {f with fsdata := t}
        if r.errno ≠ 0 then some (⟨-1,dest ++ r.data⟩,f)
        else some (⟨(bcount : ℤ)-r.resid,dest ++ r.data⟩,f)
      else
        let (r,t) := ops.foRead f.fsdata sopenRasize
        let f := {f with fsdata := t, rabuf := r.data ++ f.rabuf.drop r.data.length}
        if r.errno ≠ 0 then some (⟨-1,dest⟩,f)
        else
          let f := {f with raoffset := 0, ralen := sopenRasize-r.resid}
          if f.ralen = 0 then some (⟨(bcount : ℤ)-(resid-c : ℕ),dest⟩,f)
          else readLoop ops bcount fuel f (resid-c) dest := by
  have hra : f.ralen < 2^31 := lt_of_le_of_lt h.short (by decide)
  have hmin : imin f.ralen resid = c := by rw [imin_eq hra hlt,hc]
  have hnn : ¬ (c : ℤ) < 0 := not_lt.mpr (Int.natCast_nonneg _)
  have hchunk := h.chunk (c := c) (hc ▸ min_le_left _ _)
  conv_lhs => rw [readLoop]
  simp only [hmin,if_neg hnn,Int.toNat_natCast,hchunk]

theorem readLoop_hit {f : OpenFile τ} {p : ℕ} (h : At file pos f p) (bcount fuel : ℕ) {resid : ℕ}
    (hlt : resid < 2^31) (dest : List UInt8) (hpos : 0 < resid) (hle : resid ≤ f.ralen) :
    Supplies ops file pos bcount (fuel+1) f p resid dest := by
  have hin : p+resid ≤ file.length := by
    rcases h.inside with h₀ | h₀
    · omega
    · omega
  have hlen : ((file.drop p).take resid).length = resid := by
    rw [List.length_take,List.length_drop]
    omega
  refine ⟨{f with raoffset := f.raoffset+resid, ralen := f.ralen-resid},?_,?_⟩
  · rw [readLoop_turn h bcount fuel hlt (min_eq_right hle).symm dest]
    dsimp only
    rw [if_pos ⟨hpos,Nat.sub_self resid⟩,hlen,Nat.sub_self,Nat.cast_zero,sub_zero]
  · rw [hlen]
    exact h.consume hle

theorem readLoop_bypass {f : OpenFile τ} {p : ℕ} (h : At file pos f p) (bcount fuel : ℕ) {resid : ℕ}
    (hs : ServesAt ops file pos f.fsdata (resid-f.ralen)) (hlt : resid < 2^31) (dest : List UInt8)
    (hbig : sopenRasize ≤ resid-f.ralen) : Supplies ops file pos bcount (fuel+1) f p resid dest := by
  have hra : 0 < sopenRasize := by decide
  have hle : f.ralen ≤ resid := by omega
  have hpos := h.pos_eq
  have hread := hs.read
  have hnew := hs.read_pos
  rw [hpos] at hread hnew
  have happ := take_drop_append file p hle
  have hlen := congrArg List.length happ
  rw [List.length_append] at hlen
  have hheld : ((file.drop p).take f.ralen).length = f.ralen := by
    rw [List.length_take,List.length_drop]
    have := h.inside
    omega
  refine ⟨{f with raoffset := f.raoffset+f.ralen, ralen := f.ralen-f.ralen,
                  fsdata := (ops.foRead f.fsdata (resid-f.ralen)).2},?_,?_⟩
  · rw [readLoop_turn h bcount fuel hlt (min_eq_left hle).symm dest]
    dsimp only
    rw [if_neg (by omega),if_pos hbig,hread]
    dsimp only
    rw [if_neg (by simp),List.append_assoc,happ]
    have hrest : resid-f.ralen-(List.take (resid-f.ralen) (file.drop (p+f.ralen))).length =
        resid-((file.drop p).take resid).length := by omega
    rw [hrest]
  · refine ⟨h.canRead,h.regular,?_,?_,?_,?_⟩
    · dsimp only
      omega
    · dsimp only
      omega
    · simp
    · left
      exact Nat.sub_self _

/-- The buffer is filled again. -/
theorem At.refill {f : OpenFile τ} {p : ℕ} (h : At file pos f p) (hs : ServesAt ops file pos f.fsdata sopenRasize)
    (h₀ : f.ralen = 0) :
    At file pos {f with
      fsdata := (ops.foRead f.fsdata sopenRasize).2
      rabuf := (file.drop p).take sopenRasize ++ f.rabuf.drop ((file.drop p).take sopenRasize).length
      raoffset := 0
      ralen := ((file.drop p).take sopenRasize).length} p := by
  have hnew := hs.read_pos
  rw [h.pos_eq,h₀,Nat.add_zero] at hnew
  refine ⟨h.canRead,h.regular,hnew,?_,?_,?_⟩
  · exact List.length_take_le _ _
  · dsimp only
    rw [List.drop_zero,List.take_left,List.length_take]
    exact List.take_eq_take_min
  · simp only [List.length_take,List.length_drop]
    omega

theorem readLoop_refill {f : OpenFile τ} {p : ℕ} (hs : ServesAt ops file pos f.fsdata sopenRasize) (h : At file pos f p)
    (bcount fuel : ℕ) {resid : ℕ} (hlt : resid < 2^31) (dest : List UInt8) (hle : f.ralen ≤ resid)
    (hmiss : ¬(0 < f.ralen ∧ resid-f.ralen = 0)) (hsmall : ¬ sopenRasize ≤ resid-f.ralen) :
    ∃ f₁, At file pos f₁ (p+f.ralen) ∧ f₁.ralen = min sopenRasize (file.length-(p+f.ralen)) ∧
      readLoop ops bcount (fuel+1) f resid dest =
        if f₁.ralen = 0 then some (⟨(bcount : ℤ)-(resid-f.ralen : ℕ),dest ++ (file.drop p).take f.ralen⟩,f₁)
        else readLoop ops bcount fuel f₁ (resid-f.ralen) (dest ++ (file.drop p).take f.ralen) := by
  have hread := hs.read
  rw [h.pos_eq] at hread
  have hgot : sopenRasize-(sopenRasize-((file.drop (p+f.ralen)).take sopenRasize).length) =
      ((file.drop (p+f.ralen)).take sopenRasize).length := by
    rw [List.length_take]
    omega
  refine ⟨_,(h.consume le_rfl).refill hs (Nat.sub_self _),?_,?_⟩
  · dsimp only
    rw [List.length_take,List.length_drop]
  · rw [readLoop_turn h bcount fuel hlt (min_eq_left hle).symm dest]
    dsimp only
    rw [if_neg hmiss,if_neg hsmall,hread]
    dsimp only
    rw [if_neg (by simp),hgot]

/-- Nothing comes at the end of the file, and what the buffer held is all. -/
theorem readLoop_end (hs : ∀ t n, ServesAt ops file pos t n) {f : OpenFile τ} {p : ℕ} (h : At file pos f p)
    (bcount fuel : ℕ) {resid : ℕ} (hlt : resid < 2^31) (dest : List UInt8) (hle : f.ralen ≤ resid)
    (hmiss : ¬(0 < f.ralen ∧ resid-f.ralen = 0)) (hsmall : ¬ sopenRasize ≤ resid-f.ralen)
    (hend : file.length ≤ p+f.ralen) : Supplies ops file pos bcount (fuel+1) f p resid dest := by
  obtain ⟨f₁,hat,hral,hrun⟩ := readLoop_refill (hs _ _) h bcount fuel hlt dest hle hmiss hsmall
  have hin := h.inside
  have htake : (file.drop p).take resid = (file.drop p).take f.ralen := by
    rw [List.take_of_length_le (by rw [List.length_drop]; omega),
      List.take_of_length_le (by rw [List.length_drop]; omega)]
  have hheld : ((file.drop p).take f.ralen).length = f.ralen := by
    rw [List.length_take,List.length_drop]
    omega
  refine ⟨f₁,?_,?_⟩
  · rw [hrun,if_pos (by omega),htake,hheld]
  · rw [htake,hheld]
    exact hat

/-- What comes after the buffer was taken and filled again goes behind what it held. -/
theorem Supplies.refilled {f f₁ : OpenFile τ} {p resid bcount k fuel : ℕ} {dest : List UInt8}
    (hnext : Supplies ops file pos bcount k f₁ (p+f.ralen) (resid-f.ralen) (dest ++ (file.drop p).take f.ralen))
    (h : At file pos f p) (hle : f.ralen ≤ resid)
    (hrun : readLoop ops bcount fuel f resid dest =
      readLoop ops bcount k f₁ (resid-f.ralen) (dest ++ (file.drop p).take f.ralen)) :
    Supplies ops file pos bcount fuel f p resid dest := by
  obtain ⟨f',hrun',hat'⟩ := hnext
  have hin := h.inside
  have happ := take_drop_append file p hle
  have hlen := congrArg List.length happ
  have hheld : ((file.drop p).take f.ralen).length = f.ralen := by
    rw [List.length_take,List.length_drop]
    omega
  rw [List.length_append,hheld] at hlen
  refine ⟨f',?_,?_⟩
  · rw [hrun,hrun',List.append_assoc,happ,← hlen,Nat.sub_sub]
  · rw [← hlen,← Nat.add_assoc]
    exact hat'

theorem readLoop_spec (hs : ∀ t n, ServesAt ops file pos t n) {f : OpenFile τ} {p : ℕ} (h : At file pos f p)
    (bcount fuel : ℕ) {resid : ℕ} (hlt : resid < 2^31) (hz : resid = 0 → file.length ≤ p) (dest : List UInt8) :
    Supplies ops file pos bcount (fuel+2) f p resid dest := by
  by_cases hhit : 0 < resid ∧ resid ≤ f.ralen
  · exact readLoop_hit h bcount _ hlt dest hhit.1 hhit.2
  by_cases hbig : sopenRasize ≤ resid-f.ralen
  · exact readLoop_bypass h bcount _ (hs _ _) hlt dest hbig
  have hin := h.inside
  have hle : f.ralen ≤ resid := by omega
  have hmiss : ¬(0 < f.ralen ∧ resid-f.ralen = 0) := by omega
  by_cases hend : file.length ≤ p+f.ralen
  · exact readLoop_end hs h bcount _ hlt dest hle hmiss hbig hend
  obtain ⟨f₁,hat,hral,hrun⟩ := readLoop_refill (hs _ _) h bcount (fuel+1) hlt dest hle hmiss hbig
  have hra : 0 < sopenRasize := by decide
  rw [if_neg (by omega)] at hrun
  have hrest : resid-f.ralen < 2^31 := by omega
  have hnext : Supplies ops file pos bcount (fuel+1) f₁ (p+f.ralen) (resid-f.ralen)
      (dest ++ (file.drop p).take f.ralen) := by
    by_cases hhit' : resid-f.ralen ≤ f₁.ralen
    · exact readLoop_hit hat bcount _ hrest _ (by omega) hhit'
    · exact readLoop_end hs hat bcount _ hrest _ (by omega) (by omega) (by omega) (by omega)
  exact hnext.refilled h hle hrun

/-- What every read of the file system keeps, `read` keeps. -/
theorem readLoop_keeps {P : τ → Prop} (hP : ∀ t n, P t → P (ops.foRead t n).2) {bcount fuel : ℕ} {f f' : OpenFile τ}
    {resid : ℕ} {dest : List UInt8} {r : ReadReply} (hf : P f.fsdata)
    (h : readLoop ops bcount fuel f resid dest = some (r,f')) : P f'.fsdata := by
  induction fuel generalizing f resid dest with
  | zero => cases h
  | succ fuel ih =>
    have hnext : ∀ n, P (ops.foRead f.fsdata n).2 := fun n => hP f.fsdata n hf
    rw [readLoop] at h
    dsimp only at h
    generalize sopenRasize = ra at h
    split_ifs at h
    · obtain ⟨-,rfl⟩ := Prod.mk.inj (Option.some.inj h)
      exact hf
    · obtain ⟨-,rfl⟩ := Prod.mk.inj (Option.some.inj h)
      exact hnext _
    · obtain ⟨-,rfl⟩ := Prod.mk.inj (Option.some.inj h)
      exact hnext _
    · obtain ⟨-,rfl⟩ := Prod.mk.inj (Option.some.inj h)
      exact hnext _
    · obtain ⟨-,rfl⟩ := Prod.mk.inj (Option.some.inj h)
      exact hnext _
    · exact ih (hnext _) h

theorem read_spec (hs : ∀ t n, ServesAt ops file pos t n) {f : OpenFile τ} {p : ℕ} (h : At file pos f p) (fuel : ℕ) {n : ℕ}
    (hlt : n < 2^31) (hz : n = 0 → file.length ≤ p) :
    ∃ f', read ops (fuel+2) f n = some (⟨((file.drop p).take n).length,(file.drop p).take n⟩,f') ∧
      At file pos f' (p+((file.drop p).take n).length) := by
  obtain ⟨f',hrun,hat⟩ := readLoop_spec hs h n fuel hlt hz []
  have hle : ((file.drop p).take n).length ≤ n := List.length_take_le _ _
  refine ⟨f',?_,hat⟩
  rw [read,if_neg (by rw [h.canRead]; decide),if_neg (by rw [h.regular]; decide),hrun,List.nil_append,
    Nat.cast_sub hle,sub_sub_cancel]

theorem lseekFs_spec {f : OpenFile τ} {p : ℕ} (h : At file pos f p) {offset : ℤ} {whence : Whence} (hw : whence ≠ .end)
    (hs : ∀ o, seekTarget (pos f.fsdata) o whence = seekTarget p offset whence → SeeksAt ops pos f.fsdata o whence) :
    (lseekFs ops f offset whence).1 = seekTarget p offset whence ∧
      At file pos (lseekFs ops f offset whence).2 (seekTarget p offset whence).toNat := by
  have hpos := h.pos_eq
  have htarget : seekTarget (pos f.fsdata) (if whence = .cur then offset-f.ralen else offset) whence =
      seekTarget p offset whence := by
    cases whence with
    | set => rfl
    | cur =>
      simp only [seekTarget,if_true,hpos,Nat.cast_add]
      omega
    | «end» => exact absurd rfl hw
  obtain ⟨hret,hnew⟩ := hs _ htarget
  rw [htarget] at hret hnew
  refine ⟨hret,h.canRead,h.regular,?_,Nat.zero_le _,?_,.inl rfl⟩
  · simp only [lseekFs]
    omega
  · simp [lseekFs]

theorem lseek_spec {f : OpenFile τ} {p : ℕ} (h : At file pos f p) {offset : ℤ} {whence : Whence} (hw : whence ≠ .end)
    (hz : f.ralen ≠ 0 → SeeksAt ops pos f.fsdata 0 .cur)
    (hs : ∀ t o, seekTarget (pos t) o whence = seekTarget p offset whence → SeeksAt ops pos t o whence) :
    (lseek ops f offset whence).1 = seekTarget p offset whence ∧
      At file pos (lseek ops f offset whence).2 (seekTarget p offset whence).toNat := by
  have hpos := h.pos_eq
  unfold lseek
  rw [if_neg (by rw [h.canRead]; simp),if_neg (by rw [h.regular]; decide)]
  by_cases hbuf : f.ralen ≠ 0 ∧ whence ≠ .end
  · rw [if_pos hbuf]
    obtain ⟨hret,hnew⟩ := hz hbuf.1
    simp only [seekTarget,add_zero] at hret hnew
    have hnew' : pos (ops.foSeek f.fsdata 0 .cur).2 = pos f.fsdata := by exact_mod_cast hnew
    have hat : At file pos {f with fsdata := (ops.foSeek f.fsdata 0 .cur).2} p :=
      ⟨h.canRead,h.regular,hnew'.trans hpos,h.short,h.held,h.inside⟩
    have htarget : (if whence = .set then offset else (ops.foSeek f.fsdata 0 .cur).1-f.ralen+offset) =
        seekTarget p offset whence := by
      cases whence with
      | set => rfl
      | cur =>
        rw [if_neg (by decide),hret,hpos,Nat.cast_add,add_sub_cancel_right]
        rfl
      | «end» => exact absurd rfl hw
    dsimp only
    rw [if_neg (by omega),htarget]
    split_ifs with hin
    · refine ⟨rfl,?_⟩
      obtain ⟨k,hk⟩ : ∃ k : ℕ, seekTarget p offset whence = p+k :=
        ⟨(seekTarget p offset whence-p).toNat,by omega⟩
      have hk' : (seekTarget p offset whence-((ops.foSeek f.fsdata 0 .cur).1-f.ralen)).toNat = k := by omega
      have hto : (seekTarget p offset whence).toNat = p+k := by omega
      rw [hk',hto]
      exact hat.consume (by dsimp only; omega)
    · exact lseekFs_spec hat hw (hs _)
  · rw [if_neg hbuf]
    exact lseekFs_spec h hw (hs _)

/-- The read-ahead buffer is not seen: along calls that meet `CallOk`, `read` and `lseek` answer as on
a plain file. -/
theorem readAhead_transparent (hs : Serves ops file pos) (f : OpenFile τ) (hread : f.canRead = true)
    (hreg : f.raw = false) (hnew : f.ralen = 0) (fuel : ℕ) (hfuel : 2 ≤ fuel) (calls : List FileCall)
    (hok : Along (fileStep ops fuel) (CallOk file pos) f calls) :
    answers (fileStep ops fuel) f calls = answers (plainStep file) (pos f.fsdata) calls := by
  obtain ⟨k,rfl⟩ := Nat.exists_eq_add_of_le' hfuel
  refine answers_eq (At file pos) ?_ calls f _ ?_ hok
  · intro f p call h hcall
    have hp : pos f.fsdata-f.ralen = p := by rw [h.pos_eq,Nat.add_sub_cancel]
    cases call with
    | read n =>
      rw [CallOk,hp] at hcall
      obtain ⟨f',hrun,hat⟩ := read_spec hs.at h k hcall.1 hcall.2
      simp only [fileStep,hrun,plainStep]
      exact ⟨trivial,hat⟩
    | lseek offset whence =>
      rw [CallOk,hp] at hcall
      have hseek : ∀ t o, seekTarget (pos t) o whence = seekTarget p offset whence → SeeksAt ops pos t o whence :=
        fun t o ho => hs.seek t o whence hcall.1 (ho ▸ hcall.2)
      have hzero : f.ralen ≠ 0 → SeeksAt ops pos f.fsdata 0 .cur :=
        fun _ => hs.seek f.fsdata 0 .cur (by decide) (by simp [seekTarget])
      exact (lseek_spec h hcall.1 hzero hseek).imp (fun hret => by simp only [fileStep,plainStep,hret]) id
  · exact ⟨hread,hreg,by rw [hnew,Nat.add_zero],by rw [hnew]; exact Nat.zero_le _,by simp [hnew],.inl hnew⟩

end Transparency

/-- A file system that serves one file, with its position as the whole state. -/
def listOps (file : List UInt8) : FsOps ℕ where
  foRead p n := (⟨0,(file.drop p).take n,n-((file.drop p).take n).length⟩,p+((file.drop p).take n).length)
  foSeek p offset whence :=
    if 0 ≤ seekTarget p offset whence then (seekTarget p offset whence,(seekTarget p offset whence).toNat)
    else (-1,p)
  dvStrategy p _ _ := (⟨0,[],0⟩,p)

theorem listOps_serves (file : List UInt8) : Serves (listOps file) file id where
  read _ _ := rfl
  read_pos _ _ := rfl
  seek p offset whence _ ht := by
    have ht' : 0 ≤ seekTarget p offset whence := ht
    simp only [listOps,id,if_pos ht',true_and]
    exact Int.toNat_of_nonneg ht'

def listFile (p : ℕ) : OpenFile ℕ := ⟨true,false,false,0,[],0,0,p⟩

theorem readAhead_transparent_seek :
    answers (fileStep (listOps [1,2,3]) 2) (listFile 0) [.read 1,.lseek 1 .cur,.read 5,.read 0] =
      answers (plainStep [1,2,3]) 0 [.read 1,.lseek 1 .cur,.read 5,.read 0] := by
  refine readAhead_transparent (listOps_serves [1,2,3]) (listFile 0) rfl rfl rfl 2 le_rfl _ ?_
  simp only [Along,CallOk]
  decide

/-- A read of no bytes goes on filling the buffer up to the end of the file. -/
theorem read_zero_skips_file :
    answers (fileStep (listOps [1,2,3]) 3) (listFile 0) [.read 0,.read 1] =
      [some (.read ⟨0,[]⟩),some (.read ⟨0,[]⟩)] ∧
    answers (plainStep [1,2,3]) 0 [.read 0,.read 1] = [some (.read ⟨0,[]⟩),some (.read ⟨1,[1]⟩)] := by
  decide

end Blub.Stand
