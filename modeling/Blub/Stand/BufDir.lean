import Blub.Lib.Scan
import Blub.Stand.UfsOpen

/-! Scans of a directory that is read with `buf_read_file`: by blocks, as in `search_directory`, and by records, as in the
`readdir` of `ufs.c` and of `ext2fs.c`. -/
namespace Blub.Stand
open Blub.Bytes Blub.Scan

/-- An open directory: whether a place is after its end, `buf_read_file` (no result where it has none), and the bytes that
are offered at a place. -/
structure BufDir where
  size : ℕ
  past : ℤ → Bool
  fill : UfsFile → List Outcome → Option (ℤ × UfsFile × List Outcome)
  off : ℤ → ℕ
  avail : ℤ → ℕ
  size_le : size ≤ 2^47
  inside : ∀ {fp io r}, -2^63 ≤ fp.seekp → fp.seekp < 2^63 → past fp.seekp = false → fill fp io = some r →
    0 ≤ fp.seekp ∧ fp.seekp < size
  avail_pos : ∀ o < size, 0 < avail (o : ℕ) ∧ o+avail (o : ℕ) ≤ size
  fill_again : ∀ {fp io fp' io'}, fill fp io = some (0,fp',io') → fp'.seekp = fp.seekp ∧ fill fp' io' = some (0,fp',io')

/-- What `readdir` stores for an entry. -/
structure Listed where
  type : ℕ
  name : List UInt8
  deriving DecidableEq

/-- How `readdir` looks at the record at a place of a buffer: its entry, and whether what is looked at is in a number of
bytes. No entry if it is deleted, and no result if the name does not end in the buffer. -/
structure Reader where
  entry : (ℕ → UInt8) → ℕ → Option (Option Listed)
  reach : (ℕ → UInt8) → ℕ → ℕ → Bool

namespace BufDir
variable (b : BufDir) {ρ : Type}

/-- The state of a scan: the file, and what becomes of the reads of the device. -/
abbrev At : Type := UfsFile × List Outcome

/-- A block is read: `next` says how it is walked, from where, and how far the seek pointer moves. -/
def load (next : ℤ → (ℕ → UInt8) → Option (Walk ρ × ℕ × ℕ)) : At → Option ((Except ℤ ρ × At) ⊕ (Walk ρ × ℕ × At))
  | (fp,io) =>
    if b.past fp.seekp then some (.inl (.error enoent,fp,io))
    else
      match b.fill fp io with
      | none => none
      | some (rc,fp',io') =>
        if rc ≠ 0 then some (.inl (.error rc,fp',io'))
        else (next fp.seekp fp'.buf).map fun p => .inr (p.1,p.2.1,{fp' with seekp := fp.seekp+p.2.2},io')

/-- All the records of a block. -/
def block (records : (ℕ → UInt8) → ℕ → Walk ρ) (seekp : ℤ) (buf : ℕ → UInt8) : Option (Walk ρ × ℕ × ℕ) :=
  some (records buf (b.off seekp+b.avail seekp),b.off seekp,b.avail seekp)

/-- `search_directory`. -/
def search (records : (ℕ → UInt8) → ℕ → Walk ρ) : Blocks At (Except ℤ ρ × At) ρ where
  load := b.load (b.block records)
  found := fun (fp,io) r => (.ok r,((b.fill fp io).map Prod.snd).getD (fp,io))

/-- One turn of `readdir`. -/
def readdirTurn (rd : Reader) : At → Option ((Except ℤ Listed × At) ⊕ At)
  | (fp,io) =>
    if b.past fp.seekp then some (.inl (.error enoent,fp,io))
    else
      match b.fill fp io with
      | none => none
      | some (rc,fp',io') =>
        if rc ≠ 0 then some (.inl (.error rc,fp',io'))
        else
          let dp := b.off fp.seekp
          let fp := {fp' with seekp := fp.seekp+dReclen fp'.buf dp}
          match rd.entry fp'.buf dp with
          | none => none
          | some none => some (.inr (fp,io'))
          | some (some d) => some (.inl (.ok d,fp,io'))

/-- The one record that a turn looks at. -/
def record (rd : Reader) (buf : ℕ → UInt8) (dp avail : ℕ) : Walk Listed where
  hi := dp+1
  len := dReclen buf
  find s := (rd.entry buf s).join
  Inside s := rd.reach buf s avail

def single (rd : Reader) (seekp : ℤ) (buf : ℕ → UInt8) : Option (Walk Listed × ℕ × ℕ) :=
  let dp := b.off seekp
  if rd.entry buf dp = none then none else some (record rd buf dp (b.avail seekp),dp,dReclen buf dp)

/-- `readdir` as a scan of blocks of one record. -/
def readdir (rd : Reader) : Blocks At (Except ℤ Listed × At) Listed where
  load := b.load (b.single rd)
  found := fun (fp,io) d =>
    match b.fill fp io with
    | none => (.ok d,fp,io)
    | some (_,fp',io') => (.ok d,{fp' with seekp := fp.seekp+dReclen fp'.buf (b.off fp.seekp)},io')

attribute [local grind =] load readdirTurn

section Load
variable {b} {next : ℤ → (ℕ → UInt8) → Option (Walk ρ × ℕ × ℕ)} {fp : UfsFile} {io : List Outcome}

section Turn
variable (next)

theorem load_end (hpast : b.past fp.seekp = true) : b.load next (fp,io) = some (.inl (.error enoent,fp,io)) := by
  rw [load,if_pos hpast]

variable (hpast : b.past fp.seekp ≠ true)
include hpast

theorem load_none (hfill : b.fill fp io = none) : b.load next (fp,io) = none := by
  rw [load,if_neg hpast,hfill]

theorem load_error {rc : ℤ} {fp' : UfsFile} {io' : List Outcome} (hfill : b.fill fp io = some (rc,fp',io')) (hrc : rc ≠ 0) :
    b.load next (fp,io) = some (.inl (.error rc,fp',io')) := by
  rw [load,if_neg hpast,hfill]
  exact if_pos hrc

theorem load_block {fp' : UfsFile} {io' : List Outcome} (hfill : b.fill fp io = some (0,fp',io')) :
    b.load next (fp,io) =
      (next fp.seekp fp'.buf).map fun p => .inr (p.1,p.2.1,{fp' with seekp := fp.seekp+p.2.2},io') := by
  rw [load,if_neg hpast,hfill]
  exact if_neg (not_not.mpr rfl)

end Turn

/-- A load that gives a block. -/
theorem load_inr {w : Walk ρ} {lo : ℕ} {t : At} (h : b.load next (fp,io) = some (.inr (w,lo,t))) :
    b.past fp.seekp = false ∧ ∃ fp' io' adv, b.fill fp io = some (0,fp',io') ∧ next fp.seekp fp'.buf = some (w,lo,adv) ∧
      t = ({fp' with seekp := fp.seekp+adv},io') := by
  by_cases hpast : b.past fp.seekp = true
  · rw [load_end next hpast] at h
    cases h
  rcases hfill : b.fill fp io with _ | ⟨rc,fp',io'⟩
  · rw [load_none next hpast hfill] at h
    cases h
  by_cases hrc : rc = 0
  · subst hrc
    rw [load_block next hpast hfill,Option.map_eq_some_iff] at h
    obtain ⟨⟨w',lo',adv⟩,hnext,heq⟩ := h
    cases heq
    exact ⟨Bool.eq_false_iff.mpr hpast,fp',io',adv,rfl,hnext,rfl⟩
  · rw [load_error next hpast hfill hrc] at h
    cases h

/-- The seek pointer is an `off_t`. -/
def AtOffset (t : At) : Prop := -2^63 ≤ t.1.seekp ∧ t.1.seekp < 2^63

/-- The seek pointer moves on by every block that is passed. -/
theorem load_next (hadv : ∀ (seekp : ℤ) buf w lo adv, 0 ≤ seekp → seekp < b.size → next seekp buf = some (w,lo,adv) →
      adv < 2^48 ∧ (w.Passes lo → 0 < adv)) {t t' : At} {w : Walk ρ} {lo : ℕ} (ht : AtOffset t)
    (h : b.load next t = some (.inr (w,lo,t'))) :
    AtOffset t' ∧ (w.Passes lo → b.size-t'.1.seekp.toNat < b.size-t.1.seekp.toNat) := by
  obtain ⟨fp,io⟩ := t
  obtain ⟨hlow,hhigh⟩ := ht
  dsimp only at hlow hhigh
  obtain ⟨hpast,fp',io',adv,hfill,hnext,rfl⟩ := load_inr h
  obtain ⟨h₀,hlt⟩ := b.inside hlow hhigh hpast hfill
  obtain ⟨hsmall,hpos⟩ := hadv _ _ _ _ _ h₀ hlt hnext
  have hsize := b.size_le
  unfold AtOffset
  dsimp only
  refine ⟨by omega,fun hp => ?_⟩
  have := hpos hp
  omega

/-- A scan ends, and looks only at records inside the blocks, exactly when the blocks up to the one with a result are
chains of records. -/
theorem sound_iff {s : Blocks At (Except ℤ ρ × At) ρ} (hload : s.load = b.load next)
    (hadv : ∀ (seekp : ℤ) buf w lo adv, 0 ≤ seekp → seekp < b.size → next seekp buf = some (w,lo,adv) →
      adv < 2^48 ∧ (w.Passes lo → 0 < adv)) (t : At) (ht : AtOffset t) :
    ((∃ fuel, loop s.turn fuel t ≠ none) ∧ s.StaysInside t) ↔ s.Sound t := by
  refine Blocks.sound_iff (μ := fun t => b.size-t.1.seekp.toNat) fun u w lo u' hu hl hp => ?_
  rw [hload] at hl
  refine (load_next hadv (hu.keeps (fun v w lo v' hv hlv => ?_) ht) hl).2 hp
  rw [hload] at hlv
  exact (load_next hadv hv hlv).1

end Load

theorem search_load (records : (ℕ → UInt8) → ℕ → Walk ρ) {fp fp' : UfsFile} {io io' : List Outcome}
    (hpast : b.past fp.seekp ≠ true) (hfill : b.fill fp io = some (0,fp',io')) :
    (b.search records).load (fp,io) = some (.inr (records fp'.buf (b.off fp.seekp+b.avail fp.seekp),b.off fp.seekp,
      {fp' with seekp := fp.seekp+b.avail fp.seekp},io')) :=
  load_block (b.block records) hpast hfill

theorem search_sound_iff (records : (ℕ → UInt8) → ℕ → Walk ρ) (t : At) (ht : AtOffset t) :
    ((∃ fuel, loop (b.search records).turn fuel t ≠ none) ∧ (b.search records).StaysInside t) ↔
      (b.search records).Sound t := by
  refine sound_iff (show (b.search records).load = b.load (b.block records) from rfl) (fun seekp buf w lo adv h₀ hlt hnext => ?_) t ht
  cases hnext
  obtain ⟨o,rfl⟩ := Int.eq_ofNat_of_zero_le h₀
  obtain ⟨hpos,hle⟩ := b.avail_pos o (by exact_mod_cast hlt)
  have hsize := b.size_le
  exact ⟨by omega,fun _ => hpos⟩

section Readdir
variable {b} {rd : Reader} {fp fp' : UfsFile} {io io' : List Outcome}

section Record
variable (rd) (buf : ℕ → UInt8) (dp avail : ℕ)

theorem record_lt : dp < (record rd buf dp avail).hi := Nat.lt_succ_self dp

/-- The walk of one record passes a deleted one that has a length. -/
theorem record_passes (hdead : rd.entry buf dp = some none) (hlen : 0 < dReclen buf dp) :
    (record rd buf dp avail).Passes dp := by
  have hfind : (record rd buf dp avail).find dp = none := congrArg Option.join hdead
  exact .next (record_lt rd buf dp avail) hfind (.past (Nat.add_le_add_left hlen dp))

theorem record_stuck (hdead : rd.entry buf dp = some none) (hlen : dReclen buf dp = 0) (fuel : ℕ) :
    loop (record rd buf dp avail).turn fuel dp = none := by
  have hfind : (record rd buf dp avail).find dp = none := congrArg Option.join hdead
  have hturn := Walk.turn_next (record_lt rd buf dp avail) hfind
  rw [show (record rd buf dp avail).len dp = 0 from hlen] at hturn
  exact loop_stuck hturn fuel

theorem record_live {d : Listed} (hlive : rd.entry buf dp = some (some d)) (fuel : ℕ) :
    loop (record rd buf dp avail).turn (fuel+1) dp = some (some d) :=
  loop_end (Walk.turn_found (record_lt rd buf dp avail) (congrArg Option.join hlive)) fuel

end Record

/-- After the buffer has been filled the record decides. -/
theorem readdirTurn_block (rd : Reader) (hpast : b.past fp.seekp ≠ true) (hfill : b.fill fp io = some (0,fp',io')) :
    b.readdirTurn rd (fp,io) =
      match rd.entry fp'.buf (b.off fp.seekp) with
      | none => none
      | some none => some (.inr ({fp' with seekp := fp.seekp+dReclen fp'.buf (b.off fp.seekp)},io'))
      | some (some d) => some (.inl (.ok d,{fp' with seekp := fp.seekp+dReclen fp'.buf (b.off fp.seekp)},io')) := by
  rw [readdirTurn,if_neg hpast,hfill]
  exact if_neg (not_not.mpr rfl)

theorem readdir_load (rd : Reader) (hpast : b.past fp.seekp ≠ true) (hfill : b.fill fp io = some (0,fp',io')) :
    (b.readdir rd).load (fp,io) = if rd.entry fp'.buf (b.off fp.seekp) = none then none else
      some (.inr (record rd fp'.buf (b.off fp.seekp) (b.avail fp.seekp),b.off fp.seekp,
        {fp' with seekp := fp.seekp+dReclen fp'.buf (b.off fp.seekp)},io')) := by
  refine (load_block (b.single rd) hpast hfill).trans ?_
  unfold single
  dsimp only
  split_ifs <;> rfl

/-- A deleted record of length 0 is read again and again. -/
theorem readdir_stuck (hpast : b.past fp.seekp ≠ true) (hfill : b.fill fp io = some (0,fp',io'))
    (hdead : rd.entry fp'.buf (b.off fp.seekp) = some none) (hlen : dReclen fp'.buf (b.off fp.seekp) = 0) (fuel : ℕ) :
    loop (b.readdirTurn rd) fuel (fp,io) = none := by
  obtain ⟨hseek,hagain⟩ := b.fill_again hfill
  have hturn := readdirTurn_block rd hpast hfill
  rw [← hseek] at hpast hdead hlen hturn
  have hturn' := readdirTurn_block rd hpast hagain
  rw [hdead,hlen,Nat.cast_zero,add_zero] at hturn hturn'
  cases fuel with
  | zero => rfl
  | succ fuel => rw [loop_next hturn,loop_stuck hturn']

theorem readdir_eq (fuel : ℕ) (t : At) : loop (b.readdirTurn rd) fuel t = loop (b.readdir rd).turn fuel t := by
  induction fuel generalizing t with
  | zero => rfl
  | succ fuel ih =>
    obtain ⟨fp,io⟩ := t
    by_cases hpast : b.past fp.seekp = true
    · have hturn : b.readdirTurn rd (fp,io) = some (.inl (.error enoent,fp,io)) := by rw [readdirTurn,if_pos hpast]
      rw [loop_end hturn,Blocks.loop_done (load_end (b.single rd) hpast)]
    rcases hfill : b.fill fp io with _ | ⟨rc,fp',io'⟩
    · have hturn : b.readdirTurn rd (fp,io) = none := by rw [readdirTurn,if_neg hpast,hfill]
      rw [loop_none hturn,Blocks.loop_none_load (load_none (b.single rd) hpast hfill)]
    by_cases hrc : rc = 0
    · subst hrc
      have hturn := readdirTurn_block rd hpast hfill
      have hload := readdir_load rd hpast hfill
      rcases hentry : rd.entry fp'.buf (b.off fp.seekp) with _ | _ | d
      · rw [hentry] at hturn
        rw [if_pos hentry] at hload
        rw [loop_none hturn,Blocks.loop_none_load hload]
      · rw [if_neg (hentry ▸ Option.some_ne_none _)] at hload
        rw [Blocks.loop_block hload]
        by_cases hlen : dReclen fp'.buf (b.off fp.seekp) = 0
        · rw [record_stuck _ _ _ _ hentry hlen,readdir_stuck hpast hfill hentry hlen]
        · rw [hentry] at hturn
          rw [Walk.passes_iff.mp (record_passes _ _ _ _ hentry (Nat.pos_of_ne_zero hlen)),loop_next hturn]
          exact ih _
      · rw [if_neg (hentry ▸ Option.some_ne_none _)] at hload
        rw [hentry] at hturn
        rw [loop_end hturn,Blocks.loop_block hload,record_live _ _ _ _ hentry]
        dsimp only [readdir]
        rw [hfill]
    · have hturn : b.readdirTurn rd (fp,io) = some (.inl (.error rc,fp',io')) := by
        rw [readdirTurn,if_neg hpast,hfill]
        exact if_pos hrc
      rw [loop_end hturn,Blocks.loop_done (load_error (b.single rd) hpast hfill hrc)]

/-- A live record inside the block ends the call. -/
theorem readdir_sound_live (hpast : b.past fp.seekp ≠ true) (hfill : b.fill fp io = some (0,fp',io')) {d : Listed}
    (hlive : rd.entry fp'.buf (b.off fp.seekp) = some (some d))
    (hreach : rd.reach fp'.buf (b.off fp.seekp) (b.avail fp.seekp)) : (b.readdir rd).Sound (fp,io) := by
  have hload := readdir_load rd hpast hfill
  rw [if_neg (hlive ▸ Option.some_ne_none _)] at hload
  have hfind : (record rd fp'.buf (b.off fp.seekp) (b.avail fp.seekp)).find (b.off fp.seekp) = some d :=
    congrArg Option.join hlive
  intro t ht
  cases ht with
  | first =>
    refine ⟨hload ▸ Option.some_ne_none _,fun w lo t' h => ?_⟩
    cases hload.symm.trans h
    exact .found (record_lt rd _ _ _) hreach (hfind ▸ Option.some_ne_none d)
  | next hs hp _ =>
    cases hload.symm.trans hs
    cases hp with
    | past h => exact absurd h (Nat.not_le.mpr (record_lt rd _ _ _))
    | next _ hnone _ => cases hfind.symm.trans hnone

/-- A call ends, and looks only at records inside the blocks, exactly when the deleted records that it passes are inside
and have a length, and the one that it stops at is inside. -/
theorem readdir_sound_iff (rd : Reader) (t : At) (ht : AtOffset t) :
    ((∃ fuel, loop (b.readdirTurn rd) fuel t ≠ none) ∧ (b.readdir rd).StaysInside t) ↔
      (b.readdir rd).Sound t := by
  simp only [readdir_eq]
  refine sound_iff (show (b.readdir rd).load = b.load (b.single rd) from rfl) (fun seekp buf w lo adv _ _ hnext => ?_) t ht
  rw [single] at hnext
  split_ifs at hnext
  cases hnext
  have hlen : dReclen buf (b.off seekp) < 256^2 := leGet_lt _ _ 2
  exact ⟨by omega,fun hp => hp.pos (record_lt rd buf _ _)⟩

end Readdir

end BufDir
end Blub.Stand
