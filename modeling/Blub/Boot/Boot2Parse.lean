import Mathlib.Data.List.TakeWhile
import Mathlib.Tactic

/-! The command lines of `boot2.c`: `parse`, in the buffer `cmd`. A pointer into the buffer is an index, or the list of the
bytes from it on; without a byte there, it is read outside of the buffer. -/
namespace Blub.Boot.Boot2Parse

section Code

def ndospart : ℕ := 4
def drvHard : ℕ := 0x80
def typeMaxhard : ℕ := 1

def chTab : UInt8 := 9
def chNewline : UInt8 := 10
def chBlank : UInt8 := 32
def chParen : UInt8 := 40
def chClose : UInt8 := 41
def chComma : UInt8 := 44
def chMinus : UInt8 := 45
def chColon : UInt8 := 58

/-- `optstr` with `flags`. -/
def optstr : List (UInt8 × ℕ) :=
  [(86,0x1d),(104,0xc),(97,0),(67,0xd),(99,0xa),(100,6),(103,0xf),(109,0x10),(110,0x1c),(80,0x1e),(112,0x12),(114,5),
    (115,1),(118,0xb)]

def rbxVideo : ℕ := 0x1d
def rbxSerial : ℕ := 0xc
def rbxProbekbd : ℕ := 0x1e

/-- ad, da and fd. -/
def devNm : List (UInt8 × UInt8) := [(97,100),(100,97),(102,100)]

/-- What `parse` sets of the `struct dsk`. -/
structure Dsk where
  drive : ℕ
  type : ℕ
  unit : ℕ
  slice : ℕ
  part : ℕ
  deriving DecidableEq

structure State where
  cmd : List UInt8
  opts : ℕ
  kname : Option ℕ
  dsk : Dsk

/-- `fault`: an access outside of the buffer. `rejected`: with the selection when the word began. -/
inductive Outcome
  | fault
  | rejected (before : Dsk) (s : State)
  | probe (s : State)

/-- A `char`, which has a sign. -/
def char (c : UInt8) : ℤ := if c.toNat < 0x80 then c.toNat else c.toNat-0x100

def unitOf (c : UInt8) : ℕ := ((char c-48)%2^32).toNat
def sliceOf (c : UInt8) : ℕ := ((char c-48+1)%2^8).toNat
def partOf (c : UInt8) : ℕ := ((char c-97)%2^8).toNat

def blank (c : UInt8) : Bool := c = chBlank || c = chTab || c = chNewline

/-- The partition at `a`. -/
def partition (d : Dsk) (drv : ℤ) (a : List UInt8) : Option (Bool × Dsk × List UInt8) :=
  match a[0]?, a[1]? with
  | some c, some x =>
    if x ≠ chClose then some (false,d,a)
    else
      let d := {d with part := partOf c}
      if d.part > 7 then some (false,d,a)
      else
        let drv := if drv = -1 then (d.unit : ℤ) else drv
        some (true,{d with drive := (((if d.type ≤ typeMaxhard then drvHard else 0)+drv)%2^32).toNat},a.drop 2)
  | _, _ => none

variable (wholeDiskSlice : ℕ)

/-- The slice at `a`, if there is a comma behind it, and the partition. -/
def sliced (d : Dsk) (drv : ℤ) (a : List UInt8) : Option (Bool × Dsk × List UInt8) :=
  let d := {d with slice := wholeDiskSlice}
  match a[0]?, a[1]? with
  | some c, some x =>
    if x = chComma then
      let d := {d with slice := sliceOf c}
      if d.slice > ndospart+1 then some (false,d,a) else partition d drv (a.drop 2)
    else partition d drv a
  | _, _ => none

/-- The unit at `a`, and what is behind it. -/
def fields (d : Dsk) (drv : ℤ) (a : List UInt8) : Option (Bool × Dsk × List UInt8) :=
  match a[0]?, a[1]? with
  | some c, some x =>
    let d := {d with unit := unitOf c}
    if x ≠ chComma ∨ d.unit > 9 then some (false,d,a) else sliced wholeDiskSlice d drv (a.drop 2)
  | _, _ => none

/-- The type at `o` in front of the parenthesis at `q`. -/
def named (d : Dsk) (drv : ℤ) (t : List UInt8) (o q : ℕ) : Option (Bool × Dsk × List UInt8) :=
  if q ≠ o+2 then some (false,d,t)
  else
    match t[o]?, t[o+1]? with
    | some c, some c' =>
      match devNm.findIdx? (· = (c,c')) with
      | none => some (false,d,t)
      | some i => fields wholeDiskSlice {d with type := i} drv (t.drop (o+3))
    | _, _ => none

/-- A word with a parenthesis at `q`. -/
def device (d : Dsk) (t : List UInt8) (q : ℕ) : Option (Bool × Dsk × List UInt8) :=
  match t[0]?, t[1]? with
  | some c, some x =>
    if x = chColon then if char c-48 > 9 then some (false,d,t) else named wholeDiskSlice d (char c-48) t 2 q
    else named wholeDiskSlice d (-1) t 0 q
  | _, _ => none

/-- The letters of a word of options. -/
def options : List UInt8 → ℕ → Option (Bool × ℕ)
  | [], _ => none
  | c :: l, opts =>
    if c = 0 then some (true,opts)
    else
      match optstr.lookup c with
      | none => some (false,opts)
      | some flag => options l (opts ^^^ 1 <<< flag)

/-- Without a keyboard, the console is on the serial line too. -/
def probeKbd (kbd : Bool) (opts : ℕ) : ℕ :=
  if opts.testBit rbxProbekbd then
    let opts := if kbd then opts else opts ||| (1 <<< rbxVideo ||| 1 <<< rbxSerial)
    opts &&& (2^32-1-1 <<< rbxProbekbd)
  else opts

def wordEnd (c : UInt8) : Bool := c = 0 || blank c
def nameEnd (c : UInt8) : Bool := c = 0 || c = chParen

def parseLoop (kbd : Bool) : ℕ → ℕ → State → Outcome
  | 0, _, _ => .fault
  | fuel+1, arg, s =>
    match s.cmd[arg]? with
    | none => .fault
    | some c =>
      if c = 0 then .probe s
      else if blank c then parseLoop kbd fuel (arg+1) s
      else
        match (s.cmd.drop (arg+1)).findIdx? wordEnd with
        | none => .fault
        | some k =>
          -- the word ends with a 0
          let p := if s.cmd[arg+1+k]? = some 0 then arg+1+k else arg+1+k+1
          let cmd := s.cmd.set (arg+1+k) 0
          if c = chMinus then
            match options (cmd.drop (arg+1)) s.opts with
            | none => .fault
            | some (false,opts) => .rejected s.dsk {s with cmd := cmd, opts := opts}
            | some (true,opts) => parseLoop kbd fuel p {s with cmd := cmd, opts := probeKbd kbd opts}
          else
            match (cmd.drop (arg+1)).findIdx? nameEnd with
            | none => .fault
            | some q =>
              if cmd[arg+1+q]? = some 0 then parseLoop kbd fuel p {s with cmd := cmd, kname := some arg}
              else
                match device wholeDiskSlice s.dsk (cmd.drop arg) (q+1) with
                | none => .fault
                | some (false,d,_) => .rejected s.dsk {s with cmd := cmd, dsk := d}
                | some (true,d,a) =>
                  parseLoop kbd fuel p {s with cmd := cmd, dsk := d, kname := some (cmd.length-a.length)}

/-- `parse`, up to the call of `dskprobe`. -/
def parse (kbd : Bool) (s : State) : Outcome := parseLoop wholeDiskSlice kbd (s.cmd.length+1) 0 s

attribute [local grind =] named options parseLoop

end Code

end Blub.Boot.Boot2Parse
