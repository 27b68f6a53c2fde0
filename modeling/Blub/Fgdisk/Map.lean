import Blub.Lib.Bytes
import Blub.Lib.DList

/-! The media map of `map.c`. Segments are cells of a heap and pointers are cell numbers;
`calloc` may refuse any allocation. Sector numbers and lengths are `off_t`, so every sum
wraps at 64 bits. What `warnx` prints is kept as the reason of a failed call. -/
namespace Blub.Fgdisk

/-- A value stored in an `off_t`. -/
def offT (x : ℤ) : ℤ := (x + 2^63) % 2^64 - 2^63

theorem offT_of_lt {x : ℤ} (h : -2^63 ≤ x) (hx : x < 2^63) : offT x = x := by
  unfold offT
  omega

theorem offT_range (x : ℤ) : -2^63 ≤ offT x ∧ offT x < 2^63 := by
  unfold offT
  omega

/-- `MAP_TYPE_UNUSED` to `MAP_TYPE_PMBR`. -/
inductive MapType
  | unused | mbr | mbrPart | priGptHdr | secGptHdr | priGptTbl | secGptTbl | gptPart | pmbr
  deriving DecidableEq, Repr

def mapName : MapType → String
  | .unused => "unused"
  | .mbr => "mbr"
  | .mbrPart => "mbr partition"
  | .priGptHdr => "primary gpt header"
  | .secGptHdr => "secondary gpt header"
  | .priGptTbl => "primary gpt table"
  | .secGptTbl => "secondary gpt table"
  | .gptPart => "gpt partition"
  | .pmbr => "protective mbr"

/-- What `map_data` points to: a sector buffer, the table entry at a byte offset, or the
segment of the MBR that describes a partition. -/
inductive MapData
  | null
  | buf (b : Buf)
  | ent (ofs : ℕ)
  | map (m : ℕ)

/-- The contents of a segment, apart from its links. -/
structure Seg where
  mapStart : ℤ
  mapSize : ℤ
  mapType : MapType
  mapIndex : ℕ
  mapData : MapData
  mapAlloc : Bool

structure Map extends Seg where
  mapNext : Option ℕ
  mapPrev : Option ℕ

/-- The heap of segments with the head of the list. Allocation number `k` fails when
`calloc k` is false; a refused allocation uses up its number. -/
structure Media where
  cell : ℕ → Map
  brk : ℕ
  calloc : ℕ → Bool
  mediamap : Option ℕ

namespace Media

def modify (g : Media) (m : ℕ) (f : Map → Map) : Media :=
  { g with cell := Function.update g.cell m (f (g.cell m)) }

@[simp] theorem modify_brk (g : Media) (m : ℕ) (f : Map → Map) : (g.modify m f).brk = g.brk := rfl
@[simp] theorem modify_calloc (g : Media) (m : ℕ) (f : Map → Map) :
    (g.modify m f).calloc = g.calloc := rfl
@[simp] theorem modify_mediamap (g : Media) (m : ℕ) (f : Map → Map) :
    (g.modify m f).mediamap = g.mediamap := rfl
@[simp] theorem modify_cell (g : Media) (m : ℕ) (f : Map → Map) :
    (g.modify m f).cell = Function.update g.cell m (f (g.cell m)) := rfl

end Media

/-- Why a map operation gave no segment. `noSpace` and `negative` to `nextTooSmall` are the
refusals of `map_alloc` and `map_resize`. -/
inductive MapError
  | cantFind
  | doesntFit (clobbers : Bool)
  | bogusType (current new : MapType)
  | cantCreate
  | noSpace
  | negative
  | deleteNoNext
  | deleteNextInUse
  | cantCoalesce (prevsize size : ℤ)
  | cantCreateRest
  | expandNoNext
  | expandNextInUse
  | expandNextTooSmall
  deriving DecidableEq, Repr

def MapError.text : MapError → String
  | .cantFind => "error: can't find map"
  | .doesntFit false => "error: bogus map, size doesn't fit"
  | .doesntFit true => "error: bogus map, size doesn't fit\nerror: MBR part clobers GPT, rerun with -M"
  | .bogusType current new =>
    "error: bogus map type, current=" ++ mapName current ++ " new=" ++ mapName new
  | .cantCreate => "error: can't create map"
  | .noSpace => ""
  | .negative => "negative size or alignment"
  | .deleteNoNext => "error: can't delete, next map is not found"
  | .deleteNextInUse => "error: can't delete, next map is in use"
  | .cantCoalesce prevsize size => "can't coalesce " ++ toString prevsize ++ " <= " ++ toString size
  | .cantCreateRest => "can't create map"
  | .expandNoNext => "can't expand map, no space after it"
  | .expandNextInUse => "can't expand map, next map after it in use"
  | .expandNextTooSmall => "can't expand map, not enough space in the next map after it"

/-- `map_create`: a zeroed segment, if `calloc` delivers one. -/
def mapCreate (g : Media) (start size : ℤ) (type : MapType) : Option ℕ × Media :=
  if g.calloc g.brk then
    (some g.brk,
      { g with
        brk := g.brk+1
        cell := Function.update g.cell g.brk
          { mapStart := start, mapSize := size, mapType := type, mapIndex := 0,
            mapData := .null, mapAlloc := false, mapNext := none, mapPrev := none } })
  else (none, { g with brk := g.brk+1 })

/-- Follow `map_next` while `skip` holds. A list visits each cell at most once, so `brk+1`
steps reach its end; more would mean that the links run in a circle. -/
def mapWalk (cell : ℕ → Map) (skip : Map → Bool) : ℕ → Option ℕ → Option ℕ
  | 0, _ => none
  | _+1, none => none
  | k+1, some n => if skip (cell n) then mapWalk cell skip k (cell n).mapNext else some n

/-- The end of a segment as the code computes it. -/
def Seg.end (s : Seg) : ℤ := offT (s.mapStart+s.mapSize)

/-- Link the new segment `m` in before `n`, which loses its front. -/
def cutFront (g : Media) (n m : ℕ) (size : ℤ) : Media :=
  let prev := (g.cell n).mapPrev
  let g := g.modify m fun s => { s with mapPrev := prev, mapNext := some n }
  let g := match prev with
    | some q => g.modify q fun s => { s with mapNext := some m }
    | none => { g with mediamap := some m }
  g.modify n fun s =>
    { s with mapPrev := some m, mapStart := offT (s.mapStart+size), mapSize := offT (s.mapSize-size) }

/-- Link the new segment `m` in behind `n`, which loses its tail. -/
def cutTail (g : Media) (n m : ℕ) (size : ℤ) : Media :=
  let next := (g.cell n).mapNext
  let g := g.modify m fun s => { s with mapNext := next, mapPrev := some n }
  let g := match next with
    | some q => g.modify q fun s => { s with mapPrev := some m }
    | none => g
  g.modify n fun s => { s with mapNext := some m, mapSize := offT (s.mapSize-size) }

/-- Link `p` and `m` in before `n`, which keeps only what lies behind `m`. -/
def cutMiddle (g : Media) (n m p : ℕ) : Media :=
  let len := offT ((g.cell p).mapSize+(g.cell m).mapSize)
  let g := g.modify n fun s =>
    { s with mapStart := offT (s.mapStart+len), mapSize := offT (s.mapSize-len) }
  let prev := (g.cell n).mapPrev
  let g := g.modify p fun s => { s with mapPrev := prev }
  let g := g.modify m fun s => { s with mapPrev := some p }
  let g := g.modify n fun s => { s with mapPrev := some m }
  let g := g.modify m fun s => { s with mapNext := some n }
  let g := g.modify p fun s => { s with mapNext := some m }
  match prev with
  | some q => g.modify q fun s => { s with mapNext := some p }
  | none => { g with mediamap := some p }

/-- The second half of `map_add`: make the new segment and link it into the unused segment `n`. -/
def mapSplit (g : Media) (n : ℕ) (start size : ℤ) (type : MapType) (data : MapData) (alloc : Bool) :
    Except MapError ℕ × Media :=
  let seg := g.cell n
  match mapCreate g start size type with
  | (none, g) => (.error .cantCreate, g)
  | (some m, g) =>
    let g := g.modify m fun s => { s with mapData := data, mapAlloc := alloc }
    if start = seg.mapStart then (.ok m, cutFront g n m size)
    else if offT (start+size) = seg.end then (.ok m, cutTail g n m size)
    else
      match mapCreate g seg.mapStart (offT (start-seg.mapStart)) seg.mapType with
      | (none, g) => (.error .cantCreate, g)
      | (some p, g) => (.ok m, cutMiddle g n m p)

/-- `map_add`: carve `[start, start+size)` out of the segment it lies in. A segment of exactly
that extent is taken over; any other has to be unused, or an MBR partition that makes way for
a GPT partition. -/
def mapAdd (g : Media) (start size : ℤ) (type : MapType) (data : MapData) (alloc : Bool) :
    Except MapError ℕ × Media :=
  match mapWalk g.cell (fun n => n.end ≤ start) (g.brk+1) g.mediamap with
  | none => (.error .cantFind, g)
  | some n =>
    let seg := g.cell n
    if seg.end < offT (start+size) then
      let clobbers := match seg.mapNext with
        | some q => (g.cell q).mapType = .mbrPart ∨ (g.cell q).mapType = .unused
        | none => False
      (.error (.doesntFit clobbers), g)
    else if seg.mapStart = start ∧ seg.mapSize = size then
      (.ok n, g.modify n fun s => { s with mapType := type, mapData := data, mapAlloc := alloc })
    else if seg.mapType ≠ .unused ∧ (seg.mapType ≠ .mbrPart ∨ type ≠ .gptPart) then
      (.error (.bogusType seg.mapType type), g)
    else
      mapSplit (g.modify n fun s => { s with mapType := .unused }) n start size type data alloc

/-- The search of `map_alloc` from one segment on. -/
def mapAllocFrom (g : Media) (start size alignment : ℤ) : ℕ → Option ℕ → Except MapError ℕ × Media
  | 0, _ => (.error .noSpace, g)
  | _+1, none => (.error .noSpace, g)
  | k+1, some m =>
    let seg := g.cell m
    if seg.mapType ≠ .unused ∨ seg.mapStart < 2 then
      mapAllocFrom g start size alignment k seg.mapNext
    else if start ≠ 0 ∧ seg.mapStart > start then (.error .noSpace, g)
    else
      let delta :=
        if start ≠ 0 then offT (start-seg.mapStart)
        else if alignment > 0 ∧ seg.mapStart.tmod alignment ≠ 0 then
          offT ((offT (seg.mapStart+alignment)).tdiv alignment*alignment-seg.mapStart)
        else 0
      let room := offT (seg.mapSize-delta)
      if size = 0 ∨ room ≥ size then
        if room < alignment then mapAllocFrom g start size alignment k seg.mapNext
        else
          let size :=
            if size = 0 then
              if alignment > 0 ∧ room.tmod alignment ≠ 0 then room.tdiv alignment*alignment else room
            else size
          mapAdd g (offT (seg.mapStart+delta)) size .gptPart .null false
      else mapAllocFrom g start size alignment k seg.mapNext

/-- Round `x` up to a multiple of a positive `alignment`. -/
def alignUp (x alignment : ℤ) : ℤ :=
  if alignment > 0 ∧ x.tmod alignment ≠ 0 then
    offT ((offT (x+alignment)).tdiv alignment*alignment)
  else x

/-- `map_alloc`: the first unused segment behind sector 1 that has room. -/
def mapAlloc (g : Media) (start size alignment : ℤ) : Except MapError ℕ × Media :=
  mapAllocFrom g (alignUp start alignment) (alignUp size alignment) alignment (g.brk+1) g.mediamap

/-- Drop the segment behind `m` from the list. -/
def unlinkNext (g : Media) (m n : ℕ) : Media :=
  let next := (g.cell n).mapNext
  let g := g.modify m fun s => { s with mapNext := next }
  match next with
  | some q => g.modify q fun s => { s with mapPrev := some m }
  | none => g

/-- `map_resize`. Size 0 grows `m` over the unused segment behind it. -/
def mapResize (g : Media) (m : ℕ) (size alignment : ℤ) : Except MapError ℤ × Media :=
  let seg := g.cell m
  if size < 0 ∨ alignment < 0 then (.error .negative, g)
  else if size = 0 then
    match seg.mapNext with
    | none => (.error .deleteNoNext, g)
    | some n =>
      let nseg := g.cell n
      if nseg.mapType ≠ .unused then (.error .deleteNextInUse, g)
      else if alignment = 0 then
        let size := offT (seg.mapSize+nseg.mapSize)
        (.ok size, unlinkNext (g.modify m fun s => { s with mapSize := size }) m n)
      else
        let prevsize := seg.mapSize
        let size := (offT (seg.mapSize+nseg.mapSize)).tdiv alignment*alignment
        if size ≤ prevsize then (.error (.cantCoalesce prevsize size), g)
        else
          let g := g.modify m fun s => { s with mapSize := size }
          let g := g.modify n fun s =>
            { s with mapStart := offT (s.mapStart+(size-prevsize)),
                     mapSize := offT (s.mapSize-(size-prevsize)) }
          (.ok size, if (g.cell n).mapSize = 0 then unlinkNext g m n else g)
  else
    let alignsize :=
      if alignment.tmod size ≠ 0 then offT ((offT (size+alignment)).tdiv alignment*alignment) else size
    if alignsize < seg.mapSize then
      let prevsize := seg.mapSize
      let g := g.modify m fun s => { s with mapSize := alignsize }
      let rest := match seg.mapNext with
        | some n => if (g.cell n).mapType = .unused then some n else none
        | none => none
      match rest with
      | none =>
        match mapCreate g (offT (seg.mapStart+alignsize)) (offT (prevsize-alignsize)) .unused with
        | (none, g) => (.error .cantCreateRest, g)
        | (some o, g) =>
          let g := g.modify m fun s => { s with mapNext := some o }
          let g := g.modify o fun s => { s with mapPrev := some m, mapNext := seg.mapNext }
          let g := match seg.mapNext with
            | some n => g.modify n fun s => { s with mapPrev := some o }
            | none => g
          (.ok alignsize, g)
      | some n =>
        (.ok alignsize, g.modify n fun s =>
          { s with mapStart := offT (s.mapStart-alignsize), mapSize := offT (s.mapSize+alignsize) })
    else if alignsize > seg.mapSize then
      match seg.mapNext with
      | none => (.error .expandNoNext, g)
      | some n =>
        let nseg := g.cell n
        let more := offT (alignsize-seg.mapSize)
        if nseg.mapType ≠ .unused then (.error .expandNextInUse, g)
        else if nseg.mapSize < more then (.error .expandNextTooSmall, g)
        else
          let g := g.modify n fun s =>
            { s with mapSize := offT (s.mapSize-more), mapStart := offT (s.mapStart+more) }
          let g := if (g.cell n).mapSize = 0 then unlinkNext g m n else g
          (.ok alignsize, g.modify m fun s => { s with mapSize := alignsize })
    else (.ok alignsize, g)

/-- `map_find`: the first segment of the given type. -/
def mapFind (g : Media) (type : MapType) : Option ℕ :=
  mapWalk g.cell (fun n => n.mapType ≠ type) (g.brk+1) g.mediamap

/-- `map_last`: the segment without a successor. -/
def mapLast (g : Media) : Option ℕ :=
  mapWalk g.cell (fun n => n.mapNext.isSome) (g.brk+1) g.mediamap

/-- `map_free`: room in the unused segment at `start`; with a size, whether that much fits. -/
def mapFree (g : Media) (start size : ℤ) : ℤ :=
  match mapWalk g.cell (fun n => n.end ≤ start) (g.brk+1) g.mediamap with
  | none => 0
  | some m =>
    let seg := g.cell m
    if seg.mapType ≠ .unused then 0
    else if size ≠ 0 then (if seg.end ≥ offT (start+size) then 1 else 0)
    else offT (seg.mapSize-offT (start-seg.mapStart))

/-- No segment is there yet. -/
def emptyMedia (calloc : ℕ → Bool) : Media where
  cell _ :=
    { mapStart := 0, mapSize := 0, mapType := .unused, mapIndex := 0, mapData := .null,
      mapAlloc := false, mapNext := none, mapPrev := none }
  brk := 0
  calloc := calloc
  mediamap := none

/-- `map_init`: one unused segment over the whole device. -/
def mapInit (g : Media) (size : ℤ) : Option Media :=
  match mapCreate g 0 size .unused with
  | (none, _) => none
  | (some m, g) => some { g with mediamap := some m }

attribute [local grind =] mapWalk mapSplit mapAdd mapAllocFrom mapResize

end Blub.Fgdisk
