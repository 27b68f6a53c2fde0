import Blub.Lib.Bytes

/-! The records of a UFS directory: `struct direct` of `ufs/dir.h`. -/
namespace Blub.Stand
open Blub.Bytes

def dtDir : ℕ := 4
def dtReg : ℕ := 8
def dtWht : ℕ := 14
def maxnamlen : ℕ := 255

/-- A record of a directory. One with the inode number 0 was deleted, and has kept its name. -/
structure Dirent where
  ino : ℕ
  type : ℕ
  name : List UInt8
  deriving DecidableEq

def Dirent.Live (e : Dirent) : Prop := e.ino ≠ 0

instance (e : Dirent) : Decidable e.Live := inferInstanceAs (Decidable (_ ≠ _))

def dIno (buf : ℕ → UInt8) (s : ℕ) : ℕ := leGet buf s 4
def dReclen (buf : ℕ → UInt8) (s : ℕ) : ℕ := leGet buf (s+4) 2
def dType (buf : ℕ → UInt8) (s : ℕ) : ℕ := (buf (s+6)).toNat
def dNamlen (buf : ℕ → UInt8) (s : ℕ) : ℕ := (buf (s+7)).toNat

/-- `!strcmp(name, d_name)`, for a string without a 0. -/
def dNamed (buf : ℕ → UInt8) (s : ℕ) (name : List UInt8) : Bool :=
  (List.range name.length).map (fun j => buf (s+8+j)) = name ∧ buf (s+8+name.length) = 0

/-- How many bytes of a name in a buffer `strcmp` looks at: up to the first that differs. -/
def strcmpLen (buf : ℕ → UInt8) : ℕ → List UInt8 → ℕ
  | _, [] => 1
  | s, c :: name => if buf s = c then strcmpLen buf (s+1) name+1 else 1

/-- The string at a place, if it ends within `n` bytes. -/
def strWithin (buf : ℕ → UInt8) : ℕ → ℕ → Option (List UInt8)
  | 0, _ => none
  | n+1, s => if buf s = 0 then some [] else (strWithin buf n (s+1)).map (buf s :: ·)

/-- The record at a place of a buffer, up to the next one. -/
structure RecordAt (buf : ℕ → UInt8) (s : ℕ) (e : Dirent) (next : ℕ) : Prop where
  ino : dIno buf s = e.ino
  type : dType buf s = e.type
  namlen : dNamlen buf s = e.name.length
  reclen : next = s+dReclen buf s
  name : dNamed buf s e.name = true
  nonzero : 0 ∉ e.name
  room : s+8+e.name.length < next
  live : e.Live → e.name ≠ []

/-- Records one after the other, up to the end of the buffer. -/
inductive Records (buf : ℕ → UInt8) (hi : ℕ) : ℕ → List Dirent → Prop
  | nil : Records buf hi hi []
  | cons {s next : ℕ} {e : Dirent} {l : List Dirent} (h : RecordAt buf s e next) (hl : Records buf hi next l) :
    Records buf hi s (e :: l)

attribute [local grind =] strcmpLen strWithin

variable {buf : ℕ → UInt8} {s next hi : ℕ} {e : Dirent} {l : List Dirent}

theorem Records.le (h : Records buf hi s l) : s ≤ hi := by
  induction h with
  | nil => exact le_rfl
  | cons h _ ih => exact (by have := h.room; omega : _ ≤ _).trans ih

/-- The length of a name is a byte, and a live entry has a name. -/
theorem Records.names (h : Records buf hi s l) : ∀ e ∈ l, e.name.length ≤ maxnamlen ∧ (e.Live → e.name ≠ []) := by
  induction h with
  | nil => simp
  | @cons s _ _ _ he _ ih =>
    rw [List.forall_mem_cons]
    refine ⟨⟨?_,he.live⟩,ih⟩
    have hlt := (buf (s+7)).toNat_lt
    rw [← he.namlen,dNamlen,maxnamlen]
    omega

/-- Two names are compared up to their ends. -/
theorem dNamed_unique {name name' : List UInt8} (h : dNamed buf s name = true) (h' : dNamed buf s name' = true)
    (hz : 0 ∉ name) (hz' : 0 ∉ name') : name = name' := by
  simp only [dNamed,Bool.decide_and,Bool.and_eq_true,decide_eq_true_eq] at h h'
  have hget : ∀ (l : List UInt8), (List.range l.length).map (fun j => buf (s+8+j)) = l →
      ∀ j, (hj : j < l.length) → buf (s+8+j) = l[j] := by
    intro l hl j hj
    have := List.getElem_of_eq hl (i := j) (by simpa using hj)
    simpa using this
  have hlen : name.length = name'.length := by
    rcases lt_trichotomy name.length name'.length with hlt | heq | hgt
    · have hend := hget name' h'.1 _ hlt
      rw [h.2] at hend
      exact absurd (hend ▸ List.getElem_mem hlt) hz'
    · exact heq
    · have hend := hget name h.1 _ hgt
      rw [h'.2] at hend
      exact absurd (hend ▸ List.getElem_mem hgt) hz
  rw [← h.1,← h'.1,hlen]

theorem dNamed_eq {name name' : List UInt8} (h : dNamed buf s name = true) (hz : 0 ∉ name) (hz' : 0 ∉ name') :
    dNamed buf s name' = decide (name = name') := by
  rw [Bool.eq_iff_iff,decide_eq_true_iff]
  constructor
  · intro h'
    exact dNamed_unique h h' hz hz'
  · rintro rfl
    exact h

theorem dNamed_iff (h : RecordAt buf s e next) {name : List UInt8} (hname : 0 ∉ name) :
    dNamed buf s name = true ↔ e.name = name := by
  rw [dNamed_eq h.name h.nonzero hname,decide_eq_true_iff]

theorem dNamed_congr {buf' : ℕ → UInt8} {name : List UInt8} (h : ∀ j ≤ name.length, buf (s+8+j) = buf' (s+8+j)) :
    dNamed buf s name = dNamed buf' s name := by
  have hmap : (List.range name.length).map (fun j => buf (s+8+j)) = (List.range name.length).map fun j => buf' (s+8+j) := by
    apply List.map_congr_left
    intro j hj
    exact h j (List.mem_range.mp hj).le
  rw [dNamed,dNamed,hmap,h _ le_rfl]

/-- A name is compared up to the end of the one in the buffer. -/
theorem strcmpLen_le {p k : ℕ} (hend : buf (p+k) = 0) {name : List UInt8} (hname : 0 ∉ name) : strcmpLen buf p name ≤ k+1 := by
  induction name generalizing p k with
  | nil => exact Nat.le_add_left 1 k
  | cons c name ih =>
    rw [strcmpLen]
    split_ifs with hc
    · have hpos : k ≠ 0 := by
        rintro rfl
        exact hname (hend.symm.trans hc ▸ List.mem_cons_self)
      obtain ⟨k,rfl⟩ := Nat.exists_eq_add_one_of_ne_zero hpos
      have hrest := @ih (p+1) k (by rw [← hend]; congr 1; omega) fun h => hname (List.mem_cons_of_mem c h)
      omega
    · exact Nat.le_add_left 1 k

theorem dNamed_end {name : List UInt8} (h : dNamed buf s name = true) : buf (s+8+name.length) = 0 := by
  simp only [dNamed,Bool.decide_and,Bool.and_eq_true,decide_eq_true_eq] at h
  exact h.2

/-- The records of a buffer are in the bytes before its end. -/
theorem Records.congr {buf' : ℕ → UInt8} (h : Records buf hi s l) (hbuf : ∀ j < hi, buf j = buf' j) :
    Records buf' hi s l := by
  induction h with
  | nil => exact .nil
  | @cons s next e l he hl ih =>
    have hle := hl.le
    have hroom := he.room
    refine .cons ⟨?_,?_,?_,?_,?_,he.nonzero,hroom,he.live⟩ ih
    · rw [← he.ino]
      exact leGet_congr fun j _ hj => (hbuf j (by omega)).symm
    · rw [← he.type,dType,dType,hbuf _ (by omega)]
    · rw [← he.namlen,dNamlen,dNamlen,hbuf _ (by omega)]
    · have hlen : dReclen buf s = dReclen buf' s := leGet_congr fun j _ hj => hbuf j (by omega)
      rw [he.reclen,hlen]
    · rw [← he.name]
      exact dNamed_congr fun j hj => (hbuf _ (by omega)).symm

end Blub.Stand
