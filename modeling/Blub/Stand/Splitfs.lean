import Blub.Stand.ReadAhead

/-! A file kept in slices that are read one after the other, from `splitfs.c`. Each slice is opened, read and sought with the
calls of libstand; `splitfs_open` has read the names of the slices. -/
namespace Blub.Stand

def ntries : ℕ := 3
def seekBuf : ℕ := 512

/-- What `open` does: an open file, `ENOENT`, or another error number. -/
inductive OpenOutcome (τ : Type*)
  | file (f : OpenFile τ)
  | enoent
  | error (errno : ℤ)

/-- A slice: what the attempts to open it do, the file system it is on, and whether it can be closed. -/
structure Slice (τ : Type*) where
  attempt : ℕ → OpenOutcome τ
  ops : FsOps τ
  close : Bool

/-- The loop of `split_openfile`: the disk with the slice is asked for, a few times. -/
def splitOpenLoop {τ : Type*} (s : Slice τ) : ℕ → ℕ → Except ℤ (OpenFile τ)
  | left, i =>
    match s.attempt i with
    | .file f => .ok f
    | .error errno => .error errno
    | .enoent =>
      match left with
      | 0 => .error 5
      | left+1 => splitOpenLoop s left (i+1)

/-- `struct split_file`, but the names. There is no `curfd` after a slice could not be opened. -/
structure SplitFile (τ : Type*) where
  curfile : ℕ
  curfd : Option (OpenFile τ)
  totPos : ℤ
  filePos : ℤ

/-- What a read gives: an error, or what was stored and `resid`. -/
structure SplitReply where
  failed : Bool
  data : List UInt8
  resid : ℕ
  deriving DecidableEq, Repr

attribute [local grind =] splitOpenLoop

section Code
variable {τ : Type*} (sv : List (Slice τ))

/-- `split_openfile`; false is an error. -/
def splitOpenfile (sf : SplitFile τ) : Bool × SplitFile τ :=
  match sv[sf.curfile]? with
  | none => (false,{sf with curfd := none})
  | some s =>
    match splitOpenLoop s ntries 0 with
    | .error _ => (false,{sf with curfd := none})
    | .ok f => (true,{sf with curfd := some f, filePos := 0})

/-- The last part of `splitfs_open`. -/
def splitfsOpen : Option (SplitFile τ) :=
  if sv.length = 0 then none
  else
    let r := splitOpenfile sv ⟨0,none,0,0⟩
    if r.1 then some r.2 else none

/-- The loop of `splitfs_read`. No result: a `read` that does not return. -/
def splitReadLoop (fuel size : ℕ) : ℕ → SplitFile τ → ℕ → List UInt8 → Option (SplitReply × SplitFile τ)
  | 0, _, _, _ => none
  | k+1, sf, totread, buf =>
    match sf.curfd, sv[sf.curfile]? with
    | some f, some s =>
      match read s.ops fuel f (size-totread) with
      | none => none
      | some (r,f) =>
        let sf := {sf with curfd := some f}
        let buf := buf ++ r.data
        if r.ret = -1 then some (⟨true,buf,0⟩,sf)
        else
          let sf := {sf with totPos := sf.totPos+r.ret, filePos := sf.filePos+r.ret}
          let totread := totread+r.ret.toNat
          if totread < size then
            if sf.curfile = sv.length-1 then some (⟨false,buf,size-totread⟩,sf)
            else if s.close = false then some (⟨true,buf,0⟩,sf)
            else
              let o := splitOpenfile sv {sf with curfile := sf.curfile+1}
              if o.1 then splitReadLoop fuel size k o.2 totread buf else some (⟨true,buf,0⟩,o.2)
          else some (⟨false,buf,size-totread⟩,sf)
    | _, _ => some (⟨true,buf,0⟩,sf)

/-- `splitfs_read`. -/
def splitfsRead (fuel : ℕ) (sf : SplitFile τ) (size : ℕ) : Option (SplitReply × SplitFile τ) :=
  splitReadLoop sv fuel size fuel sf 0 []

/-- The loop of `splitfs_seek` that reads forward: whether it failed, and what is left of the distance. -/
def splitSeekLoop (fuel : ℕ) : ℕ → SplitFile τ → ℤ → Option (Bool × ℤ × SplitFile τ)
  | 0, _, _ => none
  | k+1, sf, seekBy =>
    if seekBy ≤ 0 then some (false,seekBy,sf)
    else
      -- `min` takes arguments of type `u_int`
      let n := min (seekBy%2^32).toNat seekBuf
      match splitfsRead sv fuel sf n with
      | none => none
      | some (r,sf) =>
        if r.failed then some (true,seekBy,sf)
        else if n-r.resid = 0 then some (false,seekBy,sf)
        else splitSeekLoop fuel k sf (seekBy-(n-r.resid : ℕ))

/-- The last part of `splitfs_seek`, with `lseek` on the slice. -/
def splitSeekRest (sf : SplitFile τ) (seekBy : ℤ) : Option (ℤ × SplitFile τ) :=
  if seekBy = 0 then some (sf.totPos,sf)
  else if sf.filePos+seekBy < 0 then none
  else
    match sf.curfd, sv[sf.curfile]? with
    | some f, some s =>
      let r := lseek s.ops f seekBy .cur
      let sf := {sf with curfd := some r.2}
      if r.1 < 0 then some (-1,sf)
      else
        let totPos := sf.totPos+(r.1-sf.filePos)
        some (totPos,{sf with totPos := totPos, filePos := r.1})
    | _, _ => some (-1,sf)

/-- The distance of a seek from the current position. -/
def seekBy (sf : SplitFile τ) (offset : ℤ) (whence : Whence) : ℤ :=
  if whence = .set then offset-sf.totPos else offset

/-- `splitfs_seek`; none is a `panic`. -/
def splitfsSeek (fuel : ℕ) (sf : SplitFile τ) (offset : ℤ) (whence : Whence) : Option (ℤ × SplitFile τ) :=
  if whence = .end then none
  else
    let dist := seekBy sf offset whence
    if 0 < dist then
      match splitSeekLoop sv fuel fuel sf dist with
      | none => none
      | some (failed,dist,sf) => if failed then some (-1,sf) else splitSeekRest sv sf dist
    else splitSeekRest sv sf dist

attribute [local grind =] splitOpenfile splitReadLoop splitSeekLoop

end Code

inductive SplitCall
  | read (size : ℕ)
  | seek (offset : ℤ) (whence : Whence)
  deriving DecidableEq, Repr

inductive SplitAnswer
  | read (r : SplitReply)
  | seek (pos : ℤ)
  deriving DecidableEq, Repr

/-- One call; no answer if it does not return. -/
def splitStep {τ : Type*} (sv : List (Slice τ)) (fuel : ℕ) (sf : SplitFile τ) : SplitCall → Option SplitAnswer × SplitFile τ
  | .read size =>
    match splitfsRead sv fuel sf size with
    | none => (none,sf)
    | some (r,sf) => (some (.read r),sf)
  | .seek offset whence =>
    match splitfsSeek sv fuel sf offset whence with
    | none => (none,sf)
    | some (pos,sf) => (some (.seek pos),sf)

attribute [local grind =] splitStep

end Blub.Stand
