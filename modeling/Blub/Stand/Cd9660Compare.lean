import Blub.Stand.Cd9660Match

/-! The comparison of a record: it depends on the block in the buffer alone, and so does what it examines. -/
namespace Blub.Stand
open Blub.Bytes Blub.Orbit

section Same
variable {v : IsoVolume} {ident : List UInt8}

/-- The same block, and all reads succeed. -/
structure SameBlock (m m' : IsoMem) : Prop where
  io : m.io = []
  io' : m'.io = []
  buf : ∀ j < isoBlock, m.buf j = m'.buf j

/-- And the same bytes where the search is. -/
structure SameAt (v : IsoVolume) (a : IsoArea) (m m' : IsoMem) : Prop extends SameBlock m m' where
  area : ∀ j, m.byteAt v a j = m'.byteAt v a j

theorem SameBlock.block {m m' : IsoMem} (h : SameBlock m m') : SameAt v .block m m' where
  toSameBlock := h
  area j := by
    simp only [IsoMem.byteAt]
    split_ifs with hj
    · exact h.buf _ (by omega)
    · rfl

theorem SameAt.typeAt {a : IsoArea} {m m' : IsoMem} (h : SameAt v a m m') (j : ℤ) : m.typeAt v a j = m'.typeAt v a j := by
  rw [IsoMem.typeAt,IsoMem.typeAt,h.area,h.area]

theorem SameAt.num711 {a : IsoArea} {m m' : IsoMem} (h : SameAt v a m m') (j : ℤ) : m.num711 v a j = m'.num711 v a j := by
  rw [IsoMem.num711,IsoMem.num711,h.area]

theorem SameAt.num733 {a : IsoArea} {m m' : IsoMem} (h : SameAt v a m m') (j : ℤ) : m.num733 v a j = m'.num733 v a j := by
  rw [IsoMem.num733,IsoMem.num733]
  congr 1
  exact leGet_congr fun i _ _ => h.area _

/-- After a read the two buffers for continuations are the same. -/
theorem SameBlock.read {m m' : IsoMem} (h : SameBlock m m') (bno : ℕ) (a : IsoArea) : SameAt v a
    ⟨m.buf,blit m.susp 0 isoBlock (v.sector bno),[]⟩ ⟨m'.buf,blit m'.susp 0 isoBlock (v.sector bno),[]⟩ where
  io := rfl
  io' := rfl
  buf := h.buf
  area j := by
    simp only [IsoMem.byteAt]
    split_ifs with hj
    · cases a with
      | block => exact h.buf _ (by omega)
      | cont =>
        exact (blit_inside (Nat.zero_le _) (by omega)).trans (blit_inside (Nat.zero_le _) (by omega)).symm
    · rfl

/-- Two turns on the same bytes. -/
inductive SameTurn (v : IsoVolume) (s : SuspAt) : SuspTurn → SuspTurn → Prop
  | found {m m' : IsoMem} (h : SameAt v s.area m m') : SameTurn v s (.found m) (.found m')
  | null {m m' : IsoMem} (h : SameBlock m m') : SameTurn v s (.null m) (.null m')
  | next {s' : SuspAt} {m m' : IsoMem} (h : SameAt v s'.area m m') : SameTurn v s (.next s' m) (.next s' m')

theorem suspTurn_same {s : SuspAt} {m m' : IsoMem} (h : SameAt v s.area m m') :
    SameTurn v s (suspTurn v ident s m) (suspTurn v ident s m') := by
  unfold suspTurn
  rw [← h.typeAt,← h.num711,← h.num733,h.io,h.io']
  by_cases hp : s.p+3 < s.fin
  · rw [if_pos hp,if_pos hp]
    by_cases hident : m.typeAt v s.area s.p = ident
    · rw [if_pos hident,if_pos hident]
      exact .found h
    rw [if_neg hident,if_neg hident]
    by_cases hstop : m.typeAt v s.area s.p = suspStop
    · rw [if_pos hstop,if_pos hstop]
      exact .null h.toSameBlock
    rw [if_neg hstop,if_neg hstop]
    by_cases hce : m.typeAt v s.area s.p = suspContinuation
    · rw [if_pos hce,if_pos hce]
      have hread := fun a => h.toSameBlock.read (v := v) (cdb2devb (m.num733 v s.area (s.p+4))) a
      dsimp only [List.headD_nil,List.tail_nil,strategy]
      rw [if_neg (by simp),if_neg (by simp),(hread s.area).num733,(hread s.area).num733]
      exact .next (hread .cont)
    · rw [if_neg hce,if_neg hce]
      exact .next h
  · rw [if_neg hp,if_neg hp]
    exact .null h.toSameBlock

/-- Two searches on the same bytes. -/
inductive SameFind (v : IsoVolume) : Option (Option SuspAt × IsoMem) → Option (Option SuspAt × IsoMem) → Prop
  | none : SameFind v none none
  | null {m m' : IsoMem} (h : SameBlock m m') : SameFind v (some (.none,m)) (some (.none,m'))
  | found {s : SuspAt} {m m' : IsoMem} (h : SameAt v s.area m m') : SameFind v (some (some s,m)) (some (some s,m'))

theorem suspLoop_same {fuel : ℕ} {s : SuspAt} {m m' : IsoMem} (h : SameAt v s.area m m') :
    SameFind v (suspLoop v ident fuel s m) (suspLoop v ident fuel s m') := by
  induction fuel generalizing s m m' with
  | zero => exact .none
  | succ fuel ih =>
    rw [suspLoop,suspLoop]
    have hturn := @suspTurn_same v ident s m m' h
    generalize suspTurn v ident s m = t at hturn
    generalize suspTurn v ident s m' = t' at hturn
    cases hturn with
    | found h => exact .found h
    | null h => exact .null h
    | next h => exact ih h

theorem suspLookup_same {dp : ℤ} {lenskip fuel : ℕ} {m m' : IsoMem} (h : SameBlock m m') :
    SameFind v (suspLookupRecord v ident dp lenskip fuel m) (suspLookupRecord v ident dp lenskip fuel m') := by
  have hb := h.block (v := v)
  have hname : m.recNameLen v dp = m'.recNameLen v dp := hb.num711 _
  have hlen : m.recLength v dp = m'.recLength v dp := hb.num711 _
  have hstart : suspStart v dp lenskip m = suspStart v dp lenskip m' := by rw [suspStart,suspStart,hname,hlen]
  rw [suspLookupRecord,suspLookupRecord,hstart]
  exact suspLoop_same hb

/-- The same value, and memories with the same block. -/
inductive SameOut {α : Type} : Option (α × IsoMem) → Option (α × IsoMem) → Prop
  | none : SameOut none none
  | some {a : α} {m m' : IsoMem} (h : SameBlock m m') : SameOut (some (a,m)) (some (a,m'))

theorem rripNameAt_same {s : SuspAt} {m m' : IsoMem} (h : SameAt v s.area m m') : rripNameAt v m s = rripNameAt v m' s := by
  simp only [rripNameAt,h.num711,h.area]

theorem dirmatch_same {path : List UInt8} {dp : ℤ} {useRrip : Bool} {lenskip fuel : ℕ} {m m' : IsoMem}
    (h : SameBlock m m') :
    SameOut (dirmatch v path dp useRrip lenskip fuel m) (dirmatch v path dp useRrip lenskip fuel m') := by
  have hname : ∀ {m m' : IsoMem}, SameBlock m m' → isoName v dp m = isoName v dp m' := by
    intro m m' h
    simp only [isoName,IsoMem.recNameLen,(h.block (v := v)).num711,(h.block (v := v)).area]
  unfold dirmatch
  cases useRrip with
  | false =>
    simp only [Bool.false_eq_true,if_false,hname h]
    exact .some h
  | true =>
    simp only [if_true,rripLookupName]
    have hfind := @suspLookup_same v rripName dp lenskip fuel m m' h
    generalize suspLookupRecord v rripName dp lenskip fuel m = r at hfind
    generalize suspLookupRecord v rripName dp lenskip fuel m' = r' at hfind
    cases hfind with
    | none => exact .none
    | null h =>
      dsimp only
      rw [hname h]
      exact .some h
    | found h =>
      dsimp only
      rw [← rripNameAt_same h]
      cases rripNameAt v _ _ with
      | none =>
        dsimp only
        rw [hname h.toSameBlock]
        exact .some h.toSameBlock
      | some name => exact .some h.toSameBlock

theorem rripCheck_same {dp : ℤ} {lenskip fuel : ℕ} {m m' : IsoMem} (h : SameBlock m m') :
    SameOut ((rripCheck v dp lenskip fuel m).map fun r => ((r.1,r.2.1),r.2.2))
      ((rripCheck v dp lenskip fuel m').map fun r => ((r.1,r.2.1),r.2.2)) := by
  have hb := h.block (v := v)
  have hname : m.recNameLen v dp = m'.recNameLen v dp := hb.num711 _
  have hlen : m.recLength v dp = m'.recLength v dp := hb.num711 _
  unfold rripCheck
  dsimp only
  rw [← hname,← hlen,← hb.typeAt,← hb.num711,← hb.num711,← hb.area,← hb.area]
  by_cases hend : dp+m.recLength v dp < dp+33+m.recNameLen v dp
  · rw [if_pos hend,if_pos hend]
    exact .some h
  rw [if_neg hend,if_neg hend]
  split_ifs with hsp
  · exact .some h
  · have hfind := @suspLookup_same v suspExtref dp 0 fuel m m' h
    generalize suspLookupRecord v suspExtref dp 0 fuel m = r at hfind
    generalize suspLookupRecord v suspExtref dp 0 fuel m' = r' at hfind
    cases hfind with
    | none => exact .none
    | null h => exact .some h
    | found h => exact .some h.toSameBlock

end Same

/-- What is kept from record to record: whether none was compared yet, and the Rock Ridge parameters. -/
structure IsoFlags where
  first : Bool
  useRrip : Bool
  lenskip : ℕ
  deriving DecidableEq

def IsoScan.flags (s : IsoScan) : IsoFlags := ⟨s.first,s.useRrip,s.lenskip⟩

section Compare
variable (v : IsoVolume) (path : List UInt8) (susp : ℕ)

/-- What `dirmatch` says of the record at a place of a block, as `cd9660_open` calls it; nothing if it does not come
back. -/
def compareRecord (b : ℕ → UInt8) (fl : IsoFlags) (o : ℕ) : Option (Bool × IsoFlags) :=
  let m : IsoMem := ⟨b,fun _ => 0,[]⟩
  match if fl.first then rripCheck v o fl.lenskip susp m else some (fl.useRrip,fl.lenskip,m) with
  | none => none
  | some (useRrip,lenskip,m) =>
    (dirmatch v path o useRrip (if fl.first then 0 else lenskip) susp m).map fun r => (r.1,⟨false,useRrip,lenskip⟩)

def IsoScan.after (s : IsoScan) (fl : IsoFlags) (m : IsoMem) : IsoScan :=
  {s with first := fl.first, useRrip := fl.useRrip, lenskip := fl.lenskip, mem := m}

/-- What the loop does with a record, by what is said of it. -/
def recordTurn (s : IsoScan) (hit : Bool) (fl : IsoFlags) (m : IsoMem) : IsoTurn :=
  if hit then .found (s.after fl m)
  else
    let dp := s.dp+m.recLength v s.dp
    .next {s.after fl m with dp := dp, off := s.off+m.recLength v dp}

variable {v path susp}

theorem dirmatch_buf {o : ℤ} {useRrip : Bool} {skip : ℕ} {m : IsoMem} {out : Bool × IsoMem}
    (h : dirmatch v path o useRrip skip susp m = some out) : out.2.buf = m.buf := by
  cases useRrip with
  | false =>
    rw [dirmatch,if_neg Bool.false_ne_true] at h
    cases h
    rfl
  | true =>
    rw [dirmatch,if_pos rfl] at h
    cases hr : rripLookupName v o skip susp m with
    | none => rw [hr] at h; cases h
    | some r =>
      have hbuf := rripLookupName_buf hr
      rw [hr] at h
      obtain ⟨name,m'⟩ := r
      cases name <;> (cases h; exact hbuf)

theorem rripCheck_buf {o : ℤ} {lenskip : ℕ} {m : IsoMem} {out : Bool × ℕ × IsoMem}
    (h : rripCheck v o lenskip susp m = some out) : out.2.2.buf = m.buf := by
  unfold rripCheck at h
  dsimp only at h
  split_ifs at h
  · cases h; rfl
  · cases h; rfl
  · cases hs : suspLookupRecord v suspExtref o 0 susp m with
    | none => rw [hs] at h; cases h
    | some r =>
      rw [hs] at h
      cases h
      exact @suspLoop_buf v suspExtref susp _ m r hs

theorem dirmatch_pair {o : ℤ} {useRrip : Bool} {skip : ℕ} {m m' : IsoMem} (h : SameBlock m m') :
    dirmatch v path o useRrip skip susp m' = none ∧ dirmatch v path o useRrip skip susp m = none ∨
    ∃ hit m₁ m₁', dirmatch v path o useRrip skip susp m' = some (hit,m₁') ∧
      dirmatch v path o useRrip skip susp m = some (hit,m₁) ∧ m₁.io = [] ∧ m₁.buf = m.buf := by
  have hd := @dirmatch_same v path o useRrip skip susp m m' h
  cases hx : dirmatch v path o useRrip skip susp m with
  | none =>
    rw [hx] at hd
    cases hy : dirmatch v path o useRrip skip susp m' with
    | none => exact .inl ⟨rfl,rfl⟩
    | some y => rw [hy] at hd; cases hd
  | some x =>
    have hb := dirmatch_buf hx
    rw [hx] at hd
    cases hy : dirmatch v path o useRrip skip susp m' with
    | none => rw [hy] at hd; cases hd
    | some y =>
      rw [hy] at hd
      cases hd with
      | some h => exact .inr ⟨_,_,_,rfl,rfl,h.io,hb⟩

theorem rripCheck_pair {o : ℤ} {lenskip : ℕ} {m m' : IsoMem} (h : SameBlock m m') :
    rripCheck v o lenskip susp m' = none ∧ rripCheck v o lenskip susp m = none ∨
    ∃ (r : Bool × ℕ) (m₁ m₁' : IsoMem), rripCheck v o lenskip susp m' = some (r.1,r.2,m₁') ∧
      rripCheck v o lenskip susp m = some (r.1,r.2,m₁) ∧ SameBlock m₁ m₁' ∧ m₁.buf = m.buf := by
  have hd := @rripCheck_same v o lenskip susp m m' h
  cases hx : rripCheck v o lenskip susp m with
  | none =>
    rw [hx] at hd
    cases hy : rripCheck v o lenskip susp m' with
    | none => exact .inl ⟨rfl,rfl⟩
    | some y => rw [hy] at hd; cases hd
  | some x =>
    have hb := rripCheck_buf hx
    rw [hx] at hd
    cases hy : rripCheck v o lenskip susp m' with
    | none => rw [hy] at hd; cases hd
    | some y =>
      rw [hy] at hd
      obtain ⟨u,k,m₁⟩ := x
      obtain ⟨u',k',m₁'⟩ := y
      cases hd with
      | some h => exact .inr ⟨(u,k),m₁,m₁',rfl,rfl,h,hb⟩

/-- The record is compared, and the block is kept. -/
theorem isoRecord_spec {s : IsoScan} (hio : s.mem.io = []) :
    compareRecord v path susp s.mem.buf s.flags s.dp = none ∧ isoRecord v path susp s = none ∨
    ∃ hit fl m, compareRecord v path susp s.mem.buf s.flags s.dp = some (hit,fl) ∧
      isoRecord v path susp s = some (recordTurn v s hit fl m) ∧ m.io = [] ∧ m.buf = s.mem.buf := by
  have hsame : SameBlock s.mem ⟨s.mem.buf,fun _ => 0,[]⟩ := ⟨hio,rfl,fun _ _ => rfl⟩
  have hrun : ∀ {m m' : IsoMem} (useRrip : Bool) (lenskip skip : ℕ), SameBlock m m' → m.buf = s.mem.buf →
      (dirmatch v path s.dp useRrip skip susp m' = none ∧ dirmatch v path s.dp useRrip skip susp m = none) ∨
      ∃ hit fl m₁, (dirmatch v path s.dp useRrip skip susp m').map (fun r => (r.1,(⟨false,useRrip,lenskip⟩ : IsoFlags))) =
          some (hit,fl) ∧ (dirmatch v path s.dp useRrip skip susp m = some (hit,m₁) ∧ fl = ⟨false,useRrip,lenskip⟩) ∧
        m₁.io = [] ∧ m₁.buf = s.mem.buf := by
    intro m m' useRrip lenskip skip h hbuf
    obtain ⟨h₁,h₂⟩ | ⟨hit,m₁,m₁',h₁,h₂,hio,hb⟩ := @dirmatch_pair v path susp s.dp useRrip skip m m' h
    · exact .inl ⟨h₁,h₂⟩
    · exact .inr ⟨hit,_,m₁,by rw [h₁]; rfl,⟨h₂,rfl⟩,hio,hb.trans hbuf⟩
  unfold compareRecord isoRecord IsoScan.flags
  dsimp only
  cases s.first with
  | true =>
    simp only [if_true]
    obtain ⟨h₁,h₂⟩ | ⟨⟨u,k⟩,m₁,m₁',h₁,h₂,hm,hb⟩ := @rripCheck_pair v susp s.dp s.lenskip s.mem _ hsame
    · rw [h₁,h₂]
      exact .inl ⟨rfl,rfl⟩
    · rw [h₁,h₂]
      dsimp only
      obtain ⟨h₁,h₂⟩ | ⟨hit,fl,m₂,h₁,⟨h₂,rfl⟩,hio,hb⟩ := hrun u k 0 hm hb
      · rw [h₁,h₂]
        exact .inl ⟨rfl,rfl⟩
      · rw [h₂]
        exact .inr ⟨hit,_,m₂,h₁,by cases hit <;> rfl,hio,hb⟩
  | false =>
    simp only [Bool.false_eq_true,if_false]
    obtain ⟨h₁,h₂⟩ | ⟨hit,fl,m₂,h₁,⟨h₂,rfl⟩,hio,hb⟩ := hrun s.useRrip s.lenskip s.lenskip hsame rfl
    · rw [h₁,h₂]
      exact .inl ⟨rfl,rfl⟩
    · rw [h₂]
      exact .inr ⟨hit,_,m₂,h₁,by cases hit <;> rfl,hio,hb⟩

theorem compareRecord_congr {b b' : ℕ → UInt8} (h : ∀ j < isoBlock, b j = b' j) (fl : IsoFlags) (o : ℕ) :
    compareRecord v path susp b fl o = compareRecord v path susp b' fl o := by
  have hsame : SameBlock ⟨b,fun _ => 0,[]⟩ ⟨b',fun _ => 0,[]⟩ := ⟨rfl,rfl,h⟩
  unfold compareRecord
  dsimp only
  cases fl.first with
  | true =>
    simp only [if_true]
    obtain ⟨h₁,h₂⟩ | ⟨⟨u,k⟩,m₁,m₁',h₁,h₂,hm,-⟩ := @rripCheck_pair v susp o fl.lenskip _ _ hsame
    · rw [h₁,h₂]
    · rw [h₁,h₂]
      dsimp only
      obtain ⟨h₁,h₂⟩ | ⟨hit,m₂,m₂',h₁,h₂,-⟩ := @dirmatch_pair v path susp o u 0 _ _ hm
      · rw [h₁,h₂]
      · rw [h₁,h₂]
        rfl
  | false =>
    simp only [Bool.false_eq_true,if_false]
    obtain ⟨h₁,h₂⟩ | ⟨hit,m₂,m₂',h₁,h₂,-⟩ := @dirmatch_pair v path susp o fl.useRrip fl.lenskip _ _ hsame
    · rw [h₁,h₂]
    · rw [h₁,h₂]
      rfl

end Compare

section Inside
variable (v : IsoVolume) (path : List UInt8) (susp : ℕ)

/-- A place of the block buffer, or of the buffer for continuations. -/
def InBuffer (j : ℤ) : Prop := 0 ≤ j ∧ j < isoBlock

/-- The bytes that a turn of `susp_lookup_record` examines, with those that its caller looks at in the field found. -/
def lookupTouches (ident : List UInt8) (extra : SuspAt → IsoMem → List ℤ) (s : SuspAt) (m : IsoMem) : List ℤ :=
  suspTouches v ident s m ++ if s.p+3 < s.fin ∧ m.typeAt v s.area s.p = ident then extra s m else []

/-- All turns of a lookup stay in the buffers. -/
def LookupInside (ident : List UInt8) (extra : SuspAt → IsoMem → List ℤ) (dp : ℤ) (lenskip : ℕ) (m : IsoMem) : Prop :=
  ∀ n x, orbit (suspStep v ident) (suspStart v dp lenskip m,m) n = some x →
    ∀ j ∈ lookupTouches v ident extra x.1 x.2, InBuffer j

/-- The bytes that `rrip_check` examines for the SP field: its type, its length and its signature, up to the first that
is not right, and then the bytes to skip. -/
def presentTouches (dp : ℤ) (m : IsoMem) : List ℤ :=
  let p := dp+33+m.recNameLen v dp
  if dp+m.recLength v dp < p then []
  else if m.typeAt v .block p ≠ suspPresent then [p,p+1]
  else if m.num711 v .block (p+2) ≠ 7 then [p,p+1,p+2]
  else if m.byteAt v .block (p+4) ≠ 0xbe then [p,p+1,p+2,p+4]
  else if m.byteAt v .block (p+5) ≠ 0xef then [p,p+1,p+2,p+4,p+5]
  else [p,p+1,p+2,p+4,p+5,p+6]

/-- A record has the SP field. -/
def IsoMem.Present (m : IsoMem) (dp : ℤ) : Prop :=
  let p := dp+33+m.recNameLen v dp
  p ≤ dp+m.recLength v dp ∧ m.typeAt v .block p = suspPresent ∧ m.num711 v .block (p+2) = 7 ∧
    m.byteAt v .block (p+4) = 0xbe ∧ m.byteAt v .block (p+5) = 0xef

/-- `rrip_check` stays in the buffers. -/
structure CheckInside (dp : ℤ) (m : IsoMem) : Prop where
  present : ∀ j ∈ presentTouches v dp m, InBuffer j
  extref : m.Present v dp → LookupInside v suspExtref (fun _ _ => []) dp 0 m

/-- How many bytes of a name `dirmatch` examines. -/
def nameExamined (fold : Bool) : List UInt8 → List UInt8 → ℕ
  | _, [] => 0
  | [], d :: name => if d = isoDot ∧ name ≠ [] then 2 else 1
  | c :: path, d :: name =>
    if c = isoSlash then (if d = isoDot ∧ name ≠ [] then 2 else 1)
    else if c = d ∨ fold ∧ toupper c = d then nameExamined fold path name+1
    else 1

/-- The bytes examined of the field with the Rock Ridge name: its flags, and where the name is in the field its length
and the name. -/
def nameTouches (s : SuspAt) (m : IsoMem) : List ℤ :=
  (s.p+4) :: if m.num711 v s.area (s.p+4) = 0 then
    (s.p+2) :: (List.range (nameExamined true path ((rripNameAt v m s).getD []))).map fun (j : ℕ) => s.p+5+j
  else []

/-- The comparison of a record stays in the buffers: `rrip_check`, where it is the first one, and then the search for
the Rock Ridge name, if there are such names. -/
structure CompareInside (m : IsoMem) (fl : IsoFlags) (o : ℕ) : Prop where
  check : fl.first = true → CheckInside v o m
  name : ∀ lenskip m', (if fl.first then rripCheck v o fl.lenskip susp m else some (fl.useRrip,fl.lenskip,m)) =
    some (true,lenskip,m') → LookupInside v rripName (nameTouches v path) o (if fl.first then 0 else lenskip) m'

attribute [local grind =] nameExamined

variable {v path susp} {ident : List UInt8} {m m' : IsoMem}

theorem SameBlock.symm (h : SameBlock m m') : SameBlock m' m := ⟨h.io',h.io,fun j hj => (h.buf j hj).symm⟩

theorem LookupInside.same {extra : SuspAt → IsoMem → List ℤ} {dp : ℤ} {lenskip : ℕ}
    (hextra : ∀ s m m', SameAt v s.area m m' → extra s m = extra s m') (h : SameBlock m m')
    (hin : LookupInside v ident extra dp lenskip m) : LookupInside v ident extra dp lenskip m' := by
  have hb := h.block (v := v)
  have hname : m.recNameLen v dp = m'.recNameLen v dp := hb.num711 _
  have hlen : m.recLength v dp = m'.recLength v dp := hb.num711 _
  have hstart : suspStart v dp lenskip m = suspStart v dp lenskip m' := by rw [suspStart,suspStart,hname,hlen]
  have hrel : ∀ n, Option.Rel (fun x y => x.1 = y.1 ∧ SameAt v x.1.area x.2 y.2)
      (orbit (suspStep v ident) (suspStart v dp lenskip m,m) n)
      (orbit (suspStep v ident) (suspStart v dp lenskip m',m') n) := orbit_rel ⟨hstart,hb⟩ fun n x y _ _ hxy => ?_
  · intro n y hy j hj
    have hn := hrel n
    rw [hy] at hn
    cases hx : orbit (suspStep v ident) (suspStart v dp lenskip m,m) n with
    | none => rw [hx] at hn; cases hn
    | some x =>
      rw [hx] at hn
      cases hn with
      | some hxy =>
        obtain ⟨hs,hat⟩ := hxy
        apply hin n x hx j
        rwa [lookupTouches,suspTouches,hat.typeAt,hextra _ _ _ hat,hs]
  · obtain ⟨s,m⟩ := x
    obtain ⟨s',m'⟩ := y
    obtain ⟨rfl,hat⟩ := hxy
    have hturn := @suspTurn_same v ident s m m' hat
    rw [suspStep,suspStep]
    dsimp only at hturn ⊢
    generalize suspTurn v ident s m = t at hturn
    generalize suspTurn v ident s m' = t' at hturn
    cases hturn with
    | found h => exact .none
    | null h => exact .none
    | next h => exact .some ⟨rfl,h⟩

theorem nameTouches_same {s : SuspAt} (h : SameAt v s.area m m') : nameTouches v path s m = nameTouches v path s m' := by
  rw [nameTouches,nameTouches,h.num711,rripNameAt_same h]

theorem CheckInside.same {dp : ℤ} (h : SameBlock m m') (hin : CheckInside v dp m) : CheckInside v dp m' := by
  have hb := h.block (v := v)
  have hname : m.recNameLen v dp = m'.recNameLen v dp := hb.num711 _
  have hlen : m.recLength v dp = m'.recLength v dp := hb.num711 _
  constructor
  · have hpresent := hin.present
    simp only [presentTouches,hname,hlen,hb.typeAt,hb.num711,hb.area] at hpresent ⊢
    exact hpresent
  · intro hsp
    refine (hin.extref ?_).same (fun _ _ _ _ => rfl) h
    simp only [IsoMem.Present,hname,hlen,hb.typeAt,hb.num711,hb.area] at hsp ⊢
    exact hsp

theorem CompareInside.same {fl : IsoFlags} {o : ℕ} (h : SameBlock m m') (hin : CompareInside v path susp m fl o) :
    CompareInside v path susp m' fl o := by
  obtain ⟨first,u,k⟩ := fl
  refine ⟨fun hfirst => (hin.check hfirst).same h,fun lenskip m₁' hrun => ?_⟩
  cases first with
  | true =>
    obtain ⟨hnone,-⟩ | ⟨⟨u',k'⟩,m₁,m₂,h₁,h₂,hm,-⟩ := @rripCheck_pair v susp o k _ _ h
    · rw [if_pos rfl,hnone] at hrun
      cases hrun
    · rw [if_pos rfl,h₁] at hrun
      obtain ⟨rfl,rfl,rfl⟩ : u' = true ∧ k' = lenskip ∧ m₂ = m₁' := by simpa using hrun
      have hname := hin.name k' m₁ (by rw [if_pos rfl,h₂])
      exact hname.same (fun _ _ _ hat => nameTouches_same hat) hm
  | false =>
    cases hrun
    exact (hin.name _ m rfl).same (fun _ _ _ hat => nameTouches_same hat) h

/-- It is the same on the same block. -/
theorem compareInside_congr {fl : IsoFlags} {o : ℕ} (h : SameBlock m m') :
    CompareInside v path susp m fl o ↔ CompareInside v path susp m' fl o :=
  ⟨fun hin => hin.same h,fun hin => hin.same h.symm⟩

/-- Without Rock Ridge names nothing but the record is looked at. -/
theorem compareInside_plain {lenskip o : ℕ} : CompareInside v path susp m ⟨false,false,lenskip⟩ o where
  check h := by cases h
  name _ _ h := by cases h

end Inside

end Blub.Stand
