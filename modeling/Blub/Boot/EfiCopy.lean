import Blub.Lib.Bytes
import Blub.Lib.Trace

/-! The staging area of the EFI loader: what is copied in goes to a place in it and to its own address at the end. Addresses
and sums of them have 64 bits. -/
namespace Blub.Boot.EfiCopy
open Bytes Trace

/-- How far an address lies behind another, around the end of the address space. -/
def dist (p a : ℕ) : ℕ := (a+(2^64-p))%2^64

/-- `n` values from an address on. -/
def put {α : Type*} (mem : ℕ → α) (p n : ℕ) (src : ℕ → α) : ℕ → α := fun a => if dist p a < n then src (dist p a) else mem a

/-- `staging` and `staging_end`. -/
structure Area where
  staging : ℕ
  stagingEnd : ℕ
  le : staging ≤ stagingEnd
  lt : stagingEnd < 2^64
  words : 8 ∣ stagingEnd-staging

/-- The offset, whether it is set, and the memory. -/
structure Stage where
  stageOffset : ℕ
  stageOffsetSet : Bool
  mem : ℕ → UInt8

/-- What a call returns, which addresses it reads or writes through the offset, and what it copies out. -/
structure Answer where
  ret : ℤ
  place : ℕ
  count : ℕ
  bytes : ℕ → UInt8

/-- The calls on the area; what `read` returns and stores is given. -/
inductive Call
  | copyin (src : ℕ → UInt8) (dest len : Fin (2^64))
  | readin (dest len : Fin (2^64)) (ret : ℤ) (data : List UInt8) (fits : data.length ≤ len)
  | copyout (src len : Fin (2^64))

section Code

def stagePages : ℕ := 96*1024*1024/4096

/-- `efi_copy_init`: the area, or half of it. -/
def efiCopyInit (allocatePages : ℕ → Option ℕ) : Option (ℕ × ℕ) :=
  match allocatePages stagePages with
  | some staging => some (staging,staging+stagePages*4096)
  | none => (allocatePages (stagePages/2)).map fun staging => (staging,staging+stagePages/2*4096)

variable (area : Area)

def efiTranslate (st : Stage) (ptr : ℕ) : ℕ := (ptr+st.stageOffset)%2^64

def refused : Answer := ⟨-1,0,0,fun _ => 0⟩

/-- The first destination sets the offset. -/
def setOffset (st : Stage) (dest : ℕ) : Stage :=
  if st.stageOffsetSet then st else {st with stageOffset := (area.staging+(2^64-dest))%2^64, stageOffsetSet := true}

def efiCopyin (st : Stage) (src : ℕ → UInt8) (dest len : ℕ) : Answer × Stage :=
  let st := setOffset area st dest
  if area.stagingEnd < (dest+st.stageOffset+len)%2^64 then (refused,st)
  else
    (⟨Int.bmod len (2^64),efiTranslate st dest,len,fun _ => 0⟩,
      {st with mem := put st.mem (efiTranslate st dest) len src})

def efiCopyout (st : Stage) (src len : ℕ) : Answer :=
  if area.stagingEnd < (src+st.stageOffset+len)%2^64 then refused
  else ⟨Int.bmod len (2^64),efiTranslate st src,len,fun i => st.mem ((efiTranslate st src+i)%2^64)⟩

def efiReadin (st : Stage) (dest len : ℕ) (ret : ℤ) (data : List UInt8) : Answer × Stage :=
  if area.stagingEnd < (dest+st.stageOffset+len)%2^64 then (refused,st)
  else
    (⟨ret,efiTranslate st dest,data.length,fun _ => 0⟩,
      {st with mem := put st.mem (efiTranslate st dest) data.length (ofList data)})

/-- `*dst++ = *src++` for words. -/
def copyWord (mem : ℕ → UInt8) (dst src : ℕ) : ℕ → UInt8 := put mem dst 8 fun i => mem ((src+i)%2^64)

def finishLoop (last : ℕ) : ℕ → ℕ → ℕ → (ℕ → UInt8) → ℕ → UInt8
  | 0, _, _, mem => mem
  | fuel+1, src, dst, mem =>
    if src < last then finishLoop last fuel (src+8) ((dst+8)%2^64) (copyWord mem dst src) else mem

/-- Where the area goes at the end. -/
def finalPlace (st : Stage) : ℕ := (area.staging+(2^64-st.stageOffset))%2^64

/-- `efi_copy_finish`: the memory after it. -/
def efiCopyFinish (st : Stage) : ℕ → UInt8 :=
  finishLoop area.stagingEnd (area.stagingEnd-area.staging) area.staging (finalPlace area st) st.mem

attribute [local grind =] finishLoop

end Code

/-- The loader, and beside it the byte last stored for each address. -/
structure Watched where
  stage : Stage
  last : ℕ → Option UInt8

section Runs
variable (area : Area)

def step (w : Watched) : Call → Answer × Watched
  | .copyin src dest len =>
    let r := efiCopyin area w.stage src dest len
    (r.1,⟨r.2,put w.last dest r.1.count fun i => some (src i)⟩)
  | .readin dest len ret data _ =>
    let r := efiReadin area w.stage dest len ret data
    (r.1,⟨r.2,put w.last dest r.1.count fun i => some (ofList data i)⟩)
  | .copyout src len => (efiCopyout area w.stage src len,w)

def start (mem : ℕ → UInt8) : Watched := ⟨⟨0,false,mem⟩,fun _ => none⟩

def after (w : Watched) (calls : List Call) : Watched := calls.foldl (fun w c => (step area w c).2) w

/-- The call is refused, or the offset is set and the place for the bytes, counted from the start of the area by their
distance from the first destination, is reached without a sum around the end of the address space. -/
def Clear (st : Stage) (addr len : ℕ) : Prop :=
  len = 0 ∨ area.stagingEnd < (addr+st.stageOffset+len)%2^64 ∨
    st.stageOffsetSet = true ∧ area.staging+dist area.staging (efiTranslate st addr)+len < 2^64

def StepClear (w : Watched) : Call → Prop
  | .copyin _ dest len => Clear area (setOffset area w.stage dest) dest len
  | .readin dest len _ _ _ => Clear area w.stage dest len
  | .copyout src len => Clear area w.stage src len

/-- A call touches only the area, and gives back what was stored last. -/
def Faithful (w : Watched) (c : Call) : Prop :=
  (∀ i < (step area w c).1.count,
    area.staging ≤ ((step area w c).1.place+i)%2^64 ∧ ((step area w c).1.place+i)%2^64 < area.stagingEnd) ∧
  ∀ src len, c = .copyout src len → ∀ i < (step area w c).1.count, ∀ b, w.last ((src+i)%2^64) = some b →
    (step area w c).1.bytes i = b

/-- What was stored does not reach the final place of the area from below. -/
def FinishClear (w : Watched) : Prop :=
  finalPlace area w.stage = area.staging ∨ ∀ a < 2^64, w.last a ≠ none →
    dist area.staging (efiTranslate w.stage a) < dist area.staging (finalPlace area w.stage)

attribute [local grind =] step StepClear

end Runs

/-- What `efi_copy_init` sets up is an area. -/
theorem efiCopyInit_area {allocatePages : ℕ → Option ℕ} {staging stagingEnd : ℕ}
    (h : efiCopyInit allocatePages = some (staging,stagingEnd)) (hlt : stagingEnd < 2^64) :
    ∃ area : Area, area.staging = staging ∧ area.stagingEnd = stagingEnd := by
  have hpages : ∃ pages, stagingEnd = staging+pages*4096 := by
    rw [efiCopyInit] at h
    split at h
    · obtain ⟨rfl,rfl⟩ := Prod.mk.inj (Option.some.inj h)
      exact ⟨_,rfl⟩
    · obtain ⟨s,-,hpair⟩ := Option.map_eq_some_iff.mp h
      obtain ⟨rfl,rfl⟩ := Prod.mk.inj hpair
      exact ⟨_,rfl⟩
  obtain ⟨pages,rfl⟩ := hpages
  exact ⟨⟨staging,staging+pages*4096,Nat.le_add_right _ _,hlt,by omega⟩,rfl,rfl⟩

section Distance
variable {p a i n : ℕ}

theorem add_dist (hp : p < 2^64) (ha : a < 2^64) : (p+dist p a)%2^64 = a := by
  simp only [dist]
  omega

theorem dist_of_le (hp : p ≤ a) (ha : a < 2^64) : dist p a = a-p := by
  simp only [dist]
  omega

theorem put_inside {α : Type*} {mem src : ℕ → α} (h : dist p a < n) : put mem p n src a = src (dist p a) := if_pos h

theorem put_outside {α : Type*} {mem src : ℕ → α} (h : n ≤ dist p a) : put mem p n src a = mem a :=
  if_neg (Nat.not_lt.mpr h)

theorem put_zero {α : Type*} (mem : ℕ → α) (p : ℕ) (src : ℕ → α) : put mem p 0 src = mem := by
  funext a
  exact put_outside (Nat.zero_le _)

/-- An offset does not change a distance. -/
theorem dist_offset (o : ℕ) (hp : p < 2^64) : dist ((p+o)%2^64) ((a+o)%2^64) = dist p a := by
  simp only [dist]
  omega

end Distance

section Hold
variable {area : Area} {w : Watched}

/-- What was stored last for an address is in the area, at the place of the address. -/
structure Held (area : Area) (w : Watched) : Prop where
  offset_lt : w.stage.stageOffset < 2^64
  unset : w.stage.stageOffsetSet = false → ∀ a < 2^64, w.last a = none
  held : ∀ a < 2^64, ∀ b, w.last a = some b → area.staging ≤ efiTranslate w.stage a ∧
    efiTranslate w.stage a < area.stagingEnd ∧ w.stage.mem (efiTranslate w.stage a) = b

/-- An accepted call has its bytes in the area. -/
theorem Clear.inside {st : Stage} {addr len : ℕ} (h : Clear area st addr len) (hlen : 0 < len)
    (hok : ¬area.stagingEnd < (addr+st.stageOffset+len)%2^64) :
    area.staging ≤ efiTranslate st addr ∧ efiTranslate st addr+len ≤ area.stagingEnd := by
  obtain hzero | hrefused | ⟨-,hsum⟩ := h
  · omega
  · exact absurd hrefused hok
  · have := area.le
    have := area.lt
    simp only [efiTranslate,dist] at hsum ⊢
    omega

/-- Bytes that are stored in the area are held there. -/
theorem Held.store (h : Held area w) {addr n : ℕ} (haddr : addr < 2^64) (src : ℕ → UInt8)
    (hin : 0 < n → area.staging ≤ efiTranslate w.stage addr ∧ efiTranslate w.stage addr+n ≤ area.stagingEnd)
    (hset : 0 < n → w.stage.stageOffsetSet = true) :
    Held area ⟨{w.stage with mem := put w.stage.mem (efiTranslate w.stage addr) n src},
      put w.last addr n fun i => some (src i)⟩ where
  offset_lt := h.offset_lt
  unset hunset a ha := by
    have hzero : n = 0 := by
      by_contra hne
      rw [hset (Nat.pos_of_ne_zero hne)] at hunset
      cases hunset
    rw [hzero,put_zero]
    exact h.unset hunset a ha
  held a ha b hb := by
    have htr : ∀ a, efiTranslate w.stage a < 2^64 := fun a => Nat.mod_lt _ (by decide)
    have hdist : dist (efiTranslate w.stage addr) (efiTranslate w.stage a) = dist addr a :=
      dist_offset _ haddr
    have hplace := add_dist (htr addr) (htr a)
    rw [hdist] at hplace
    have hsame : efiTranslate {w.stage with mem := put w.stage.mem (efiTranslate w.stage addr) n src} a =
      efiTranslate w.stage a := rfl
    rw [hsame]
    dsimp only at hb ⊢
    by_cases hnew : dist addr a < n
    · obtain ⟨hlow,hhigh⟩ := hin (by omega)
      have hlt := area.lt
      rw [Nat.mod_eq_of_lt (by omega)] at hplace
      rw [put_inside hnew] at hb
      refine ⟨by omega,by omega,?_⟩
      rw [put_inside (hdist ▸ hnew),hdist]
      exact Option.some.inj hb
    · rw [put_outside (Nat.not_lt.mp hnew)] at hb
      obtain ⟨hlow,hhigh,hmem⟩ := h.held a ha b hb
      refine ⟨hlow,hhigh,?_⟩
      rw [put_outside (hdist ▸ Nat.not_lt.mp hnew)]
      exact hmem

theorem Held.setOffset (h : Held area w) (dest : ℕ) : Held area ⟨setOffset area w.stage dest,w.last⟩ := by
  rw [EfiCopy.setOffset]
  split_ifs with hset
  · exact h
  · have hnone := h.unset (by simpa using hset)
    exact ⟨Nat.mod_lt _ (by decide),fun hunset => Bool.noConfusion hunset,fun a ha b hb =>
      absurd (hb.symm.trans (hnone a ha)) (by simp)⟩

theorem setOffset_set (st : Stage) (dest : ℕ) : (setOffset area st dest).stageOffsetSet = true := by
  rw [setOffset]
  split_ifs with hset
  · exact hset
  · rfl

/-- What is touched lies in the area. -/
theorem inside_of {p n : ℕ} (h : 0 < n → area.staging ≤ p ∧ p+n ≤ area.stagingEnd) {i : ℕ} (hi : i < n) :
    area.staging ≤ (p+i)%2^64 ∧ (p+i)%2^64 < area.stagingEnd := by
  have := h (by omega)
  have := area.lt
  rw [Nat.mod_eq_of_lt (by omega)]
  omega

/-- What an accepted call of this kind leaves. -/
theorem step_spec (h : Held area w) (c : Call) (hc : StepClear area w c) :
    Faithful area w c ∧ Held area (step area w c).2 := by
  cases c with
  | copyin src dest len =>
    have h' := h.setOffset dest
    simp only [StepClear] at hc
    simp only [Faithful,step,efiCopyin]
    split_ifs with hover
    · exact ⟨⟨fun i hi => absurd hi (Nat.not_lt_zero i),fun _ _ he => by cases he⟩,by
        rw [show refused.count = 0 from rfl,put_zero]
        exact h'⟩
    · have hin := fun hlen => hc.inside hlen hover
      exact ⟨⟨fun i hi => inside_of hin hi,fun _ _ he => by cases he⟩,
        h'.store dest.isLt src hin fun _ => setOffset_set w.stage dest⟩
  | readin dest len ret data fits =>
    simp only [StepClear] at hc
    simp only [Faithful,step,efiReadin]
    split_ifs with hover
    · exact ⟨⟨fun i hi => absurd hi (Nat.not_lt_zero i),fun _ _ he => by cases he⟩,by
        rw [show refused.count = 0 from rfl,put_zero]
        exact h⟩
    · have hin : 0 < data.length → area.staging ≤ efiTranslate w.stage dest ∧
          efiTranslate w.stage dest+data.length ≤ area.stagingEnd := fun hpos => by
        have := hc.inside (by omega) hover
        omega
      have hset : 0 < data.length → w.stage.stageOffsetSet = true := fun hpos => by
        obtain hzero | hrefused | ⟨hset,-⟩ := hc
        · omega
        · exact absurd hrefused hover
        · exact hset
      exact ⟨⟨fun i hi => inside_of hin hi,fun _ _ he => by cases he⟩,h.store dest.isLt _ hin hset⟩
  | copyout src len =>
    simp only [StepClear] at hc
    simp only [Faithful,step,efiCopyout]
    refine ⟨?_,h⟩
    split_ifs with hover
    · exact ⟨fun i hi => absurd hi (Nat.not_lt_zero i),fun _ _ _ i hi => absurd hi (Nat.not_lt_zero i)⟩
    · have hin := fun hlen => hc.inside hlen hover
      refine ⟨fun i hi => inside_of hin hi,fun src' len' he i hi b hb => ?_⟩
      obtain ⟨rfl,rfl⟩ := Call.copyout.inj he
      obtain ⟨-,-,hmem⟩ := h.held _ (Nat.mod_lt _ (by decide)) b hb
      have hplace : efiTranslate w.stage ((src+i)%2^64) = (efiTranslate w.stage src+i)%2^64 := by
        simp only [efiTranslate]
        omega
      rwa [hplace] at hmem

theorem start_held (area : Area) (mem : ℕ → UInt8) : Held area (start mem) :=
  ⟨Nat.two_pow_pos 64,fun _ _ _ => rfl,fun _ _ _ h => by cases h⟩

end Hold

section Finish
variable {area : Area}

/-- The words up to one are at the final place, and what is not yet copied is as it was. -/
structure Copied (base staging : ℕ) (mem₀ mem : ℕ → UInt8) (n : ℕ) : Prop where
  rest : ∀ a < 2^64, n ≤ dist base a → mem a = mem₀ a
  done : ∀ i < n, base = staging ∨ i < dist staging base → mem ((base+i)%2^64) = mem₀ (staging+i)

theorem Copied.word {base staging n : ℕ} {mem₀ mem : ℕ → UInt8} (h : Copied base staging mem₀ mem n)
    (hbase : base < 2^64) (hend : staging+n+8 < 2^64) :
    Copied base staging mem₀ (copyWord mem ((base+n)%2^64) (staging+n)) (n+8) where
  rest a ha hle := by
    have hout : 8 ≤ dist ((base+n)%2^64) a := by
      simp only [dist] at hle ⊢
      omega
    rw [copyWord,put_outside hout]
    exact h.rest a ha (by omega)
  done i hi hpre := by
    by_cases hold : i < n
    · have hout : 8 ≤ dist ((base+n)%2^64) ((base+i)%2^64) := by
        simp only [dist]
        omega
      rw [copyWord,put_outside hout]
      exact h.done i hold hpre
    · have hdist : dist ((base+n)%2^64) ((base+i)%2^64) = i-n := by
        simp only [dist]
        omega
      rw [copyWord,put_inside (by omega),hdist,show staging+n+(i-n) = staging+i by omega,Nat.mod_eq_of_lt (by omega)]
      -- the source is intact: it lies in front of the final place, or is it
      apply h.rest _ (by omega)
      simp only [dist] at hpre ⊢
      omega

theorem finishLoop_spec {base staging n k : ℕ} {mem₀ mem : ℕ → UInt8} (h : Copied base staging mem₀ mem (8*n))
    (hbase : base < 2^64) (hend : staging+8*(n+k) < 2^64) {fuel : ℕ} (hfuel : k ≤ fuel) :
    Copied base staging mem₀
      (finishLoop (staging+8*(n+k)) fuel (staging+8*n) ((base+8*n)%2^64) mem) (8*(n+k)) := by
  induction fuel generalizing n k mem with
  | zero =>
    obtain rfl := Nat.le_zero.mp hfuel
    exact h
  | succ fuel ih =>
    rw [finishLoop]
    cases k with
    | zero =>
      rw [if_neg (by omega)]
      exact h
    | succ k =>
      have hword := h.word hbase (by omega)
      rw [show 8*n+8 = 8*(n+1) by omega] at hword
      have hstep := ih hword (k := k) (by omega) (by omega)
      rw [show n+1+k = n+(k+1) by omega] at hstep
      rwa [if_pos (by omega),show staging+8*n+8 = staging+8*(n+1) by omega,
        show ((base+8*n)%2^64+8)%2^64 = (base+8*(n+1))%2^64 by omega]

/-- What was stored last for an address is at the address after `efi_copy_finish`. -/
theorem efiCopyFinish_last {w : Watched} (h : Held area w) (hf : FinishClear area w) {a : ℕ} (ha : a < 2^64) {b : UInt8}
    (hb : w.last a = some b) : efiCopyFinish area w.stage a = b := by
  obtain ⟨hlow,hhigh,hmem⟩ := h.held a ha b hb
  obtain ⟨n,hn⟩ := area.words
  have hle := area.le
  have hlt := area.lt
  have hend : area.staging+8*(0+n) = area.stagingEnd := by omega
  have hbase : finalPlace area w.stage < 2^64 := Nat.mod_lt _ (by decide)
  have hinit : Copied (finalPlace area w.stage) area.staging w.stage.mem w.stage.mem (8*0) :=
    ⟨fun _ _ _ => rfl,fun i hi => absurd hi (Nat.not_lt_zero i)⟩
  have hfuel : n ≤ area.stagingEnd-area.staging := by omega
  have hcopied := finishLoop_spec hinit hbase (by omega) hfuel
  obtain ⟨i,hi⟩ := Nat.exists_eq_add_of_le hlow
  have hat : (finalPlace area w.stage+i)%2^64 = a := by
    have := h.offset_lt
    simp only [finalPlace,efiTranslate] at hi ⊢
    omega
  have hpre : finalPlace area w.stage = area.staging ∨ i < dist area.staging (finalPlace area w.stage) := by
    refine hf.imp id fun hbelow => ?_
    have := hbelow a ha (by rw [hb]; simp)
    rwa [dist_of_le hlow (by omega),hi,Nat.add_sub_cancel_left] at this
  have hdone := hcopied.done i (by omega) hpre
  rwa [hat,← hi,hmem,hend,Nat.mul_zero,Nat.add_zero,Nat.add_zero,Nat.mod_eq_of_lt hbase] at hdone

end Finish

section Spec

/-- An accepted call that is not clear touches a byte outside of the area, once the offset is set. -/
theorem outside_of_not_clear {area : Area} {st : Stage} {addr len : ℕ} (hset : st.stageOffsetSet = true)
    (hnot : ¬Clear area st addr len) :
    ¬area.stagingEnd < (addr+st.stageOffset+len)%2^64 ∧
      ∃ i < len, ¬(area.staging ≤ (efiTranslate st addr+i)%2^64 ∧ (efiTranslate st addr+i)%2^64 < area.stagingEnd) := by
  simp only [Clear,not_or,not_and] at hnot
  obtain ⟨hpos,hok,hwrap⟩ := hnot
  have hsum := hwrap hset
  have hle := area.le
  have hlt := area.lt
  have hp : efiTranslate st addr < 2^64 := Nat.mod_lt _ (by decide)
  refine ⟨hok,?_⟩
  generalize efiTranslate st addr = p at hsum hp
  by_cases hbelow : p < area.staging
  · refine ⟨0,Nat.pos_of_ne_zero hpos,?_⟩
    rw [Nat.add_zero,Nat.mod_eq_of_lt hp]
    omega
  · rw [dist_of_le (Nat.not_lt.mp hbelow) hp] at hsum
    refine ⟨area.stagingEnd-p,by omega,?_⟩
    rw [Nat.mod_eq_of_lt (by omega)]
    omega

theorem run_held {area : Area} {w : Watched} (h : Held area w) (calls : List Call)
    (hclear : Along (step area) (StepClear area) w calls) :
    Held area (after area w calls) := by
  induction calls generalizing w with
  | nil => exact h
  | cons c calls ih => exact ih (step_spec h c hclear.1).2 hclear.2

/-- Along every run of clear calls the area is touched only inside and gives back what was stored, and what was stored last
is at its address at the end. -/
theorem efiStage_faithful (area : Area) (mem : ℕ → UInt8) (calls : List Call)
    (h : Along (step area) (StepClear area) (start mem) calls) :
    Along (step area) (Faithful area) (start mem) calls ∧
      (FinishClear area (after area (start mem) calls) → ∀ a < 2^64, ∀ b,
        (after area (start mem) calls).last a = some b → efiCopyFinish area (after area (start mem) calls).stage a = b) := by
  refine ⟨Along.of_invariant (Held area) (fun _ c hw hc => step_spec hw c hc) calls _ (start_held area mem) h,?_⟩
  intro hf a ha b hb
  exact efiCopyFinish_last (run_held (start_held area mem) calls h) hf ha hb

/-- One page at 1 MiB. -/
def onePage : Area := ⟨0x100000,0x101000,by decide,by decide,by decide⟩

def onePageCalls : List Call :=
  [.copyin (fun _ => 7) 0x200000 3,.readin 0x200003 4 2 [8,9] (by decide),.copyout 0x200001 3]

theorem onePage_after : (after onePage (start fun _ => 0) onePageCalls).stage.stageOffset = 0xfffffffffff00000 ∧
    (after onePage (start fun _ => 0) onePageCalls).last =
      put (put (fun _ => none) 0x200000 3 fun _ => some 7) 0x200003 2 fun i => some (ofList [8,9] i) := by
  simp [after,onePageCalls,step,efiCopyin,efiReadin,setOffset,start,onePage]

theorem onePage_finishClear : FinishClear onePage (after onePage (start fun _ => 0) onePageCalls) := by
  obtain ⟨hoffset,hlast⟩ := onePage_after
  refine .inr fun a ha hne => ?_
  have hnear : dist 0x200000 a < 5 := by
    by_contra hfar
    have hbehind : 2 ≤ dist 0x200003 a := by
      simp only [dist] at hfar ⊢
      omega
    refine hne ?_
    rw [hlast,put_outside hbehind,put_outside ((by decide : 3 ≤ 5).trans (Nat.not_lt.mp hfar))]
  rw [efiTranslate,finalPlace,hoffset]
  simp only [onePage,dist] at hnear ⊢
  omega

/-- Three bytes are copied in, two are read in behind them, and three of them copied out. -/
theorem efiStage_faithful_onePage : Along (step onePage) (Faithful onePage) (start fun _ => 0) onePageCalls ∧
    efiCopyFinish onePage (after onePage (start fun _ => 0) onePageCalls).stage 0x200004 = 9 := by
  have hclear : Along (step onePage) (StepClear onePage) (start fun _ => 0) onePageCalls :=
    ⟨.inr (.inr ⟨rfl,by decide⟩),.inr (.inr ⟨rfl,by decide⟩),.inr (.inr ⟨rfl,by decide⟩),trivial⟩
  have hlast : (after onePage (start fun _ => 0) onePageCalls).last 0x200004 = some 9 := by
    rw [onePage_after.2]
    exact put_inside (by decide)
  obtain ⟨halong,hfinish⟩ := efiStage_faithful onePage (fun _ => 0) onePageCalls hclear
  exact ⟨halong,hfinish onePage_finishClear _ (by decide) _ hlast⟩

/-- A second destination below the first one passes the check, and its byte goes in front of the area. -/
theorem efiStage_faithful_fails : ¬∀ (area : Area) (mem : ℕ → UInt8) (calls : List Call),
    Along (step area) (Faithful area) (start mem) calls := fun h =>
  absurd ((h onePage (fun _ => 0) [.copyin (fun _ => 7) 0x200000 1,.copyin (fun _ => 7) 0x1fffff 1]).2.1.1 0 (by decide)).1
    (by decide)

end Spec

end Blub.Boot.EfiCopy
